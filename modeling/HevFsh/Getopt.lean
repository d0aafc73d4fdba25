import HevFsh.OptionScan
import HevFsh.CommandLine

/-! getopt and getopt_permute of hev-compat.h, which the Windows build has, against what
the GNU getopt finds in the same words. A word is a pointer; an argument is a pointer and
an offset. -/
namespace HevFsh.Getopt
open CText CommandLine OptionScan

def dash : UInt8 := 45

def question : UInt8 := 63

def optstring : Text :=
  [52,54,107,58,116,58,118,115,102,112,120,108,58,117,58,119,58,98,58,97,58,99,58]

def strchr : Text → UInt8 → Option Text
  | [],c => if c = 0 then some [] else none
  | x::s,c => if x = c then some (x::s) else strchr s c

def takes (c : UInt8) : Bool :=
  match strchr optstring c with
  | some p => charAt p 1 = colon
  | none => false

structure Strings (α : Type) where
  text : α → Text
  visible : ∀ a, ∀ c ∈ text a, c ≠ 0

section model
variable {α : Type} (S : Strings α)

def isOperand (w : α) : Bool := charAt (S.text w) 0 ≠ dash ∨ charAt (S.text w) 1 = 0

def isEnding (w : α) : Bool := charAt (S.text w) 1 = dash ∧ charAt (S.text w) 2 = 0

def optionLoop : List α → List α
  | [] => []
  | w::ws =>
      if isOperand S w then optionLoop ws
      else if isEnding S w then []
      else match ws with
        | [] => [w]
        | a::rest =>
            if takes (charAt (S.text w) 1) ∧ charAt (S.text w) 2 = 0 then w :: a :: optionLoop rest
            else w :: optionLoop (a::rest)

def getoptPermute [DecidableEq α] : List α → List α
  | [] => []
  | name::ws =>
      let tmp := optionLoop S ws
      name :: (tmp ++ ws.filter (fun a => a ∉ tmp))

structure Vars (α : Type) where
  argv : List α
  optind : Nat
  pos : Nat
  init : Bool
  optarg : Option (α × Nat)

def start (argv : List α) : Vars α := ⟨argv,1,1,false,none⟩

def advance (g : Vars α) (arg : α) : Vars α :=
  if charAt (S.text arg) (g.pos + 1) = 0 then { g with optind := g.optind + 1, pos := 1 }
  else { g with pos := g.pos + 1 }

/- One call after the permutation; `none` is the result -1. -/
def getoptNext (g : Vars α) : Option UInt8 × Vars α :=
  match g.argv[g.optind]? with
  | none => (none,g)
  | some arg =>
      if isOperand S arg then (none,g)
      else if isEnding S arg then (none,{ g with optind := g.optind + 1 })
      else
        let optopt := charAt (S.text arg) g.pos
        if optopt = colon ∨ strchr optstring optopt = none then (some question,advance S g arg)
        else if takes optopt then
          if charAt (S.text arg) (g.pos + 1) ≠ 0 then
            (some optopt,{ g with optarg := some (arg,g.pos + 1), optind := g.optind + 1, pos := 1 })
          else match g.argv[g.optind + 1]? with
            | some next => (some optopt,{ g with optarg := some (next,0), optind := g.optind + 2, pos := 1 })
            | none => (some question,{ g with optind := g.optind + 1, pos := 1 })
        else (some optopt,advance S g arg)

def getopt [DecidableEq α] (g : Vars α) : Option UInt8 × Vars α :=
  getoptNext S (if g.init then g else { g with argv := getoptPermute S g.argv, init := true })

abbrev Result (α : Type) := UInt8 × Option (α × Nat)

inductive Results [DecidableEq α] : Vars α → List (Result α) → List α → Prop
  | ends {g g' : Vars α} (call : getopt S g = (none,g')) : Results g [] (g'.argv.drop g'.optind)
  | next {g g' : Vars α} {c : UInt8} {rs : List (Result α)} {operands : List α} (call : getopt S g = (some c,g'))
      (rest : Results g' rs operands) : Results g ((c,if takes c then g'.optarg else none) :: rs) operands

def letters (w : α) : Nat → Text → List (Result α) × Option UInt8
  | _,[] => ([],none)
  | pos,c::cs =>
      if c = colon ∨ strchr optstring c = none then
        ((question,none) :: (letters w (pos + 1) cs).1,(letters w (pos + 1) cs).2)
      else if takes c then if cs = [] then ([],some c) else ([(c,some (w,pos + 1))],none)
      else ((c,none) :: (letters w (pos + 1) cs).1,(letters w (pos + 1) cs).2)

def reading : Reading α (Result α) UInt8 where
  word w :=
    if isOperand S w then .operand
    else if isEnding S w then .ending
    else .option (letters w 1 ((S.text w).drop 1)).1 (letters w 1 ((S.text w).drop 1)).2
  early w := takes (charAt (S.text w) 1) && charAt (S.text w) 2 = 0
  give c a := (c,some (a,0))
  lack := (question,none)
  giveInj := by simp
  giveLack := by simp

/- What the GNU getopt finds: options and operands in any order, up to a "--". -/
def gnuGetopt (ws : List α) : List (Result α) × List α := scanAll (reading S) none ws

end model

section permutation
variable {α : Type} {S : Strings α} {ws : List α} {w : α}

end permutation

section calls
variable {α : Type} {S : Strings α} {ws argv rest : List α} {w name : α} {o : Option (α × Nat)}
    {i pos : Nat} {c : UInt8} {cs : Text}

def going (argv : List α) (i pos : Nat) (o : Option (α × Nat)) : Vars α := ⟨argv,i,pos,true,o⟩

variable [DecidableEq α]

end calls

end HevFsh.Getopt
