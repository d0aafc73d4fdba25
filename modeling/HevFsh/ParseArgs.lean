import HevFsh.Getopt
import HevFsh.PairText

/-! parse_args of hev-main.c on Linux, with the options that the GNU getopt finds, and the
whole of HevFshConfig. A file is what can be read of it. -/
namespace HevFsh.ParseArgs
open Protocol Inet CText HostOrder Config CommandLine Getopt

inductive LogLevel where
  | debug | info | warn | error | unset
  deriving DecidableEq, Repr

structure FshConfig extends Config where
  crypto : Bool
  ipType : Int
  logLevel : LogLevel
  uglyKtls : Bool
  timeout : UInt32
  tcpCc : Option Text
  logPath : Option Text
  tokensFile : Option Text
  key : Bytes
  deriving DecidableEq

def fshConfigNew : FshConfig where
  toConfig := configNew
  crypto := false
  ipType := 0
  logLevel := .debug
  uglyKtls := false
  timeout := 120
  tcpCc := none
  logPath := none
  tokensFile := none
  key := List.replicate 20 0

def ascii (c : Char) : UInt8 := UInt8.ofNat c.toNat

def strtoul10 (s : Text) : Nat :=
  let (negative,rest) := sign (s.dropWhile isspace)
  let n := decRun 0 rest
  if ulongMax < n then ulongMax else if negative then (ulongMax + 1 - n) % (ulongMax + 1) else n

structure Locals where
  v : Bool
  s : Bool
  f : Bool
  p : Bool
  x : Bool
  ugly : Bool
  k : Option Text
  l : Option Text
  u : Option Text
  w : Option Text
  b : Option Text
  deriving DecidableEq, Repr

def locals : Locals := ⟨false,false,false,false,false,false,none,none,none,none,none⟩

/- The switch; `none` is its default. -/
def parseOption (st : FshConfig × Locals) (opt : UInt8) (optarg : Option Text) : Option (FshConfig × Locals) :=
  if opt = ascii '4' then some ({ st.1 with ipType := 4 },st.2)
  else if opt = ascii '6' then some ({ st.1 with ipType := 6 },st.2)
  else if opt = ascii 'k' then some (st.1,{ st.2 with k := optarg })
  else if opt = ascii 't' then some ({ st.1 with timeout := UInt32.ofNat (strtoul10 (optarg.getD [])) },st.2)
  else if opt = ascii 'v' then some (st.1,{ st.2 with v := true })
  else if opt = ascii 's' then some (st.1,{ st.2 with s := true })
  else if opt = ascii 'f' then some (st.1,{ st.2 with f := true })
  else if opt = ascii 'p' then some (st.1,{ st.2 with p := true })
  else if opt = ascii 'x' then some (st.1,{ st.2 with x := true })
  else if opt = ascii 'l' then some (st.1,{ st.2 with l := optarg })
  else if opt = ascii 'u' then some (st.1,{ st.2 with u := optarg })
  else if opt = ascii 'w' then some (st.1,{ st.2 with w := optarg })
  else if opt = ascii 'b' then some (st.1,{ st.2 with b := optarg })
  else if opt = ascii 'a' then some ({ st.1 with tokensFile := optarg },st.2)
  else if opt = ascii 'c' then some ({ st.1 with tcpCc := optarg },st.2)
  else if opt = ascii 'U' then some (st.1,{ st.2 with ugly := true })
  else none

def parseOptions (st : FshConfig × Locals) : List (UInt8 × Option Text) → Int × FshConfig × Locals
  | [] => (0,st)
  | (opt,optarg)::rs => match parseOption st opt optarg with
      | none => (-1,st)
      | some st => parseOptions st rs

def parseServer (config : Config) (sa : Option Text) : Int × Config :=
  match sa with
  | none => (0,setMode config .server)
  | some sa => match parseAddr sa with
      | none => (-1,config)
      | some parsed => (0,setMode { config with
          serverAddress := parsed.addr.map (textAt parsed.b),
          serverPort := match parsed.port with
            | some port => some (textAt parsed.b port)
            | none => config.serverPort } .server)

def setKey (config : FshConfig) (val : Bytes) (ugly : Bool) : FshConfig :=
  { config with crypto := true, uglyKtls := ugly, key := val }

def parseKey (files : Text → Option Bytes) (config : FshConfig) (key : Text) (ugly : Bool) : Int × FshConfig :=
  match files key with
  | none => (-1,config)
  | some bytes => if (bytes.take 20).length ≠ 20 then (-1,config) else (0,setKey config (bytes.take 20) ugly)

def finish (files : Text → Option Bytes) (N : InetPton) (order : ByteOrder) (st : FshConfig × Locals)
    (t₁ t₂ : Option Text) : Int × FshConfig :=
  let (config,l) := st
  let (res,parsed) :=
    if l.s then parseServer config.toConfig t₁
    else parseClient N order config.toConfig l.f l.p l.x t₁ t₂ l.w l.b l.u
  let config := { config with toConfig := parsed }
  if res < 0 then (-1,config)
  else
    let (res,config) := match l.k with
      | none => (0,config)
      | some k => parseKey files config k l.ugly
    if res < 0 then (-1,config)
    else (0,{ config with logPath := l.l, logLevel := if l.v then .debug else .info })

def strings : Strings Text where
  text := content
  visible t c mem := by
    have here := List.mem_takeWhile_imp mem
    simpa using here

def resolved (r : Result Text) : UInt8 × Option Text :=
  (r.1,r.2.map (fun p => (content p.1).drop p.2))

def parseArgs (files : Text → Option Bytes) (N : InetPton) (order : ByteOrder) (config : FshConfig)
    (words : List Text) :
    Int × FshConfig :=
  let (rs,operands) := gnuGetopt strings words
  let (res,st) := parseOptions (config,locals) (rs.map resolved)
  if res < 0 then (-1,st.1)
  else finish files N order st operands[0]? operands[1]?

section numbers
variable {t : Text}

theorem strtoulDigits (digits : ∀ c ∈ t, isdigit c = true) (small : decValue t < 2 ^ 32) :
    strtoul10 t = decValue t := by
  have value : decRun 0 t = decValue t := decRunDigits digits 0
  have bound : ¬ ulongMax < decValue t := by
    unfold ulongMax
    omega
  unfold strtoul10
  rw [bareDigits digits]
  simp only [value]
  rw [if_neg bound]
  rfl

end numbers

section options
variable {config : FshConfig} {c : UInt8} {a : Option Text}

abbrev Item := UInt8 × Option Text

def gather (given : UInt8 → Option (Option Text)) (rs : List Item) : UInt8 → Option (Option Text) :=
  rs.foldl (fun given r => Function.update given r.1 (some r.2)) given

def seen (rs : List Item) : UInt8 → Option (Option Text) := gather (fun _ => none) rs

def interpret (config : FshConfig) (given : UInt8 → Option (Option Text)) : FshConfig × Locals :=
  ({ config with
      ipType := if (given (ascii '4')).isSome then 4 else if (given (ascii '6')).isSome then 6 else config.ipType,
      timeout := ((given (ascii 't')).map (fun a => UInt32.ofNat (strtoul10 (a.getD [])))).getD config.timeout,
      tokensFile := (given (ascii 'a')).getD config.tokensFile,
      tcpCc := (given (ascii 'c')).getD config.tcpCc },
    ⟨(given (ascii 'v')).isSome,(given (ascii 's')).isSome,(given (ascii 'f')).isSome,(given (ascii 'p')).isSome,
      (given (ascii 'x')).isSome,(given (ascii 'U')).isSome,(given (ascii 'k')).getD none,(given (ascii 'l')).getD none,
      (given (ascii 'u')).getD none,(given (ascii 'w')).getD none,(given (ascii 'b')).getD none⟩)

def lettersKnown : List UInt8 :=
  [ascii '4',ascii '6',ascii 'k',ascii 't',ascii 'v',ascii 's',ascii 'f',ascii 'p',ascii 'x',ascii 'l',ascii 'u',
    ascii 'w',ascii 'b',ascii 'a',ascii 'c']

theorem optionInterprets {given : UInt8 → Option (Option Text)} (known : c ∈ lettersKnown)
    (one : c = ascii '6' → given (ascii '4') = none) : parseOption (interpret config given) c a =
      some (interpret config (Function.update given c (some a))) := by
  simp only [lettersKnown,List.mem_cons,List.not_mem_nil,or_false] at known
  rcases known with rfl | rfl | rfl | rfl | rfl | rfl | rfl | rfl | rfl | rfl | rfl | rfl | rfl | rfl | rfl
  case inr.inl =>
    simpa [parseOption,interpret,Function.update,ascii] using one rfl
  all_goals rfl

theorem optionsInterpret {rs : List Item} {given : UInt8 → Option (Option Text)}
    (known : ∀ r ∈ rs, r.1 ∈ lettersKnown)
    (one : (∃ r ∈ rs, r.1 = ascii '6') → given (ascii '4') = none ∧ ∀ r ∈ rs, r.1 ≠ ascii '4') :
    parseOptions (interpret config given) rs = (0,interpret config (gather given rs)) := by
  induction rs generalizing given with
  | nil => rfl
  | cons r rs ih =>
    obtain ⟨c,a⟩ := r
    have here := @optionInterprets config c a given (known (c,a) List.mem_cons_self)
      (fun same => (one ⟨(c,a),List.mem_cons_self,same⟩).1)
    rw [parseOptions,here]
    refine ih (fun r mem => known r (List.mem_cons_of_mem _ mem)) ?_
    rintro ⟨r,mem,same⟩
    obtain ⟨none',other⟩ := one ⟨r,List.mem_cons_of_mem _ mem,same⟩
    have apart : ascii '4' ≠ c := (other (c,a) List.mem_cons_self).symm
    exact ⟨by rw [Function.update_of_ne apart]; exact none',fun r mem => other r (List.mem_cons_of_mem _ mem)⟩

theorem optionsUnknown {rs : List Item} {st : FshConfig × Locals} (unknown : (question,none) ∈ rs) :
    (parseOptions st rs).1 = -1 := by
  induction rs generalizing st with
  | nil => simp at unknown
  | cons r rs ih =>
    obtain ⟨c,a⟩ := r
    rw [parseOptions]
    cases parsed : parseOption st c a with
    | none => rfl
    | some st' =>
      rcases List.mem_cons.mp unknown with same | later
      · cases same
        contradiction
      · exact ih later

theorem gatherIff {rs : List Item} (distinct : (rs.map Prod.fst).Nodup) (given : UInt8 → Option (Option Text)) :
    gather given rs c = some a ↔ (c,a) ∈ rs ∨ (c ∉ rs.map Prod.fst ∧ given c = some a) := by
  induction rs generalizing given with
  | nil => simp [gather]
  | cons r rs ih =>
    obtain ⟨d,a'⟩ := r
    obtain ⟨fresh,distinct'⟩ := List.nodup_cons.mp distinct
    rw [gather,List.foldl_cons,← gather,ih distinct']
    by_cases same : c = d
    · subst same
      have absent : (c,a) ∉ rs := fun mem => fresh (List.mem_map.mpr ⟨_,mem,rfl⟩)
      simp only [Function.update_self,List.mem_cons,absent,List.map_cons,or_false,false_or,Prod.mk.injEq,true_and,
        true_or,not_true,false_and,Option.some.injEq]
      exact ⟨fun is => is.2.symm,fun is => ⟨fresh,is.symm⟩⟩
    · simp [same]

theorem seenIff {rs : List Item} (distinct : (rs.map Prod.fst).Nodup) : seen rs c = some a ↔ (c,a) ∈ rs := by
  rw [seen,gatherIff distinct]
  simp

theorem seenPerm {rs rs' : List Item} (perm : rs.Perm rs') (distinct : (rs.map Prod.fst).Nodup) :
    seen rs = seen rs' := by
  funext c
  refine Option.ext (fun a => ?_)
  rw [seenIff distinct,seenIff ((perm.map Prod.fst).nodup_iff.mp distinct)]
  exact perm.mem_iff

end options

end HevFsh.ParseArgs
