import HevFsh.LineSplit
import HevFsh.TokenFile

/-! getline of hev-compat, which a native Windows build reads the tokens file with:
the buffer it grows, and every store it makes in it. -/
namespace HevFsh.Compat
open Protocol LineSplit TokenManager SearchTree TokenText

/- ARCH of a native Windows build. -/
inductive Arch where
  | x64 | x86 | arm64
  deriving DecidableEq, Repr

def Arch.bits : Arch → Nat
  | .x64 => 64
  | .x86 => 32
  | .arm64 => 64

def Arch.size (a : Arch) (n : Nat) : Nat := n % 2 ^ a.bits
def Arch.ssize (a : Arch) (n : Nat) : Int := (n : Int).bmod (2 ^ a.bits)

def Arch.objectMax (a : Arch) : Nat := 2 ^ (a.bits - 1) - 1

structure Block (a : Arch) where
  bytes : Bytes
  small : bytes.length ≤ a.objectMax

/- `*lineptr` and `*n`: NULL with any number, or a block and its size. -/
structure Line (a : Arch) where
  lineptr : Option (Block a)
  n : Nat
  recorded : ∀ b ∈ lineptr, b.bytes.length = n

/- A store remembers what `*n` was, a reallocation whether there was memory for it. -/
inductive Event where
  | store (place limit : Nat)
  | realloc (size : Nat) (granted : Bool)
  deriving DecidableEq, Repr

def Event.Within : Event → Prop
  | .store place limit => place < limit
  | .realloc _ _ => True

def Event.Granted : Event → Prop
  | .store _ _ => True
  | .realloc _ granted => granted = true

/- The answer to each call of realloc: NULL, or memory with whatever it holds where it is new. -/
abbrev Heap := Nat → Option (Nat → UInt8)

structure State (a : Arch) where
  line : Line a
  stream : Bytes
  asked : Nat
  log : List Event

section memory
variable {a : Arch}

def Line.bytes (l : Line a) : Bytes := match l.lineptr with
  | none => []
  | some b => b.bytes

def resized (old : Bytes) (fresh : Nat → UInt8) (size : Nat) : Bytes :=
  old.take size ++ (List.range (size - old.length)).map fresh

@[simp] theorem resizedLength (old : Bytes) (fresh : Nat → UInt8) (size : Nat) :
    (resized old fresh size).length = size := by
  simp only [resized,List.length_append,List.length_take,List.length_map,List.length_range]
  omega

theorem resizedTake {old : Bytes} (fresh : Nat → UInt8) {size len : Nat} (inside : len ≤ old.length)
    (fits : len ≤ size) : (resized old fresh size).take len = old.take len := by
  have kept : len ≤ (old.take size).length := by
    rw [List.length_take]
    omega
  rw [resized,List.take_append_of_le_length kept,List.take_take,Nat.min_eq_left fits]

def Line.realloc (l : Line a) (answer : Option (Nat → UInt8)) (size : Nat) : Option (Line a) :=
  match answer with
  | none => none
  | some fresh =>
      if fits : size ≤ a.objectMax then
        some ⟨some ⟨resized l.bytes fresh size,by simpa using fits⟩,size,by simp⟩
      else none

def Block.set (b : Block a) (place : Nat) (c : UInt8) : Block a :=
  ⟨b.bytes.set place c,by simpa using b.small⟩

def Line.set (l : Line a) (place : Nat) (c : UInt8) : Line a where
  lineptr := l.lineptr.map (fun b => b.set place c)
  n := l.n
  recorded b is := by
    obtain ⟨old,here,rfl⟩ := Option.map_eq_some_iff.mp is
    rw [← l.recorded old here]
    exact List.length_set

@[simp] theorem setN (l : Line a) (place : Nat) (c : UInt8) : (l.set place c).n = l.n := rfl

@[simp] theorem setBytes (l : Line a) (place : Nat) (c : UInt8) :
    (l.set place c).bytes = l.bytes.set place c := by
  obtain ⟨lineptr,n,recorded⟩ := l
  cases lineptr <;> rfl

theorem lineSmall (l : Line a) : l.bytes.length ≤ a.objectMax := by
  unfold Line.bytes
  cases l.lineptr with
  | none => exact Nat.zero_le _
  | some b => exact b.small

theorem lineHeld {l : Line a} (held : l.lineptr.isSome) : l.bytes.length = l.n := by
  obtain ⟨b,is⟩ := Option.isSome_iff_exists.mp held
  have size := l.recorded b is
  unfold Line.bytes
  rw [is]
  exact size

theorem reallocSome {l l' : Line a} {answer : Option (Nat → UInt8)} {size : Nat}
    (done : l.realloc answer size = some l') : l'.n = size ∧ l'.bytes.length = size ∧
      ∀ len ≤ l.bytes.length, len ≤ size → l'.bytes.take len = l.bytes.take len := by
  unfold Line.realloc at done
  cases answer with
  | none => contradiction
  | some fresh =>
    simp only at done
    split at done
    · cases Option.some.inj done
      exact ⟨rfl,resizedLength _ _ _,fun len inside fits => resizedTake fresh inside fits⟩
    · contradiction

end memory

variable {a : Arch}

def State.realloc (heap : Heap) (size : Nat) (s : State a) : Bool × State a :=
  match s.line.realloc (heap s.asked) size with
  | none => (false,{s with asked := s.asked + 1, log := s.log ++ [.realloc size false]})
  | some line => (true,{s with line := line, asked := s.asked + 1, log := s.log ++ [.realloc size true]})

def State.store (s : State a) (place : Nat) (c : UInt8) : State a :=
  {s with line := s.line.set place c, log := s.log ++ [.store place s.line.n]}

def ensure (heap : Heap) (len : Nat) (s : State a) : Bool × State a :=
  if s.line.n < a.size (len + 2) then s.realloc heap (a.size (s.line.n * 2)) else (true,s)

/- The loop over fgetc; `none` is its own return of -1. -/
def fill (heap : Heap) : Bytes → Nat → State a → Option Nat × State a
  | [],len,s => (some len,{s with stream := []})
  | c::rest,len,s =>
      let (ok,s) := ensure heap len {s with stream := rest}
      if ok then
        let s := s.store len c
        let len := a.size (len + 1)
        if c = lineFeed then (some len,s) else fill heap rest len s
      else (none,s)

def getline (heap : Heap) (s : State a) : Int × State a :=
  let (ok,s) := if s.line.lineptr.isNone ∨ s.line.n < 2 then s.realloc heap 128 else (true,s)
  if ok then
    match fill heap s.stream 0 s with
    | (none,s) => (-1,s)
    | (some len,s) => if len = 0 then (-1,s) else (a.ssize len,s.store len 0)
  else (-1,s)

def Logged (s s' : State a) (ok : Bool) : Prop :=
  ∃ more, s'.log = s.log ++ more ∧ (∀ e ∈ more, e.Within) ∧ (ok = true ↔ ∀ e ∈ more, e.Granted)

section steps
variable {heap : Heap} {s t u : State a} {len : Nat} {ok : Bool}

theorem loggedSame (same : t.log = s.log) : Logged s t true :=
  ⟨[],by simpa using same,by simp,by simp⟩

theorem loggedStore {place : Nat} {c : UInt8} (inside : place < s.line.n) : Logged s (s.store place c) true :=
  ⟨[.store place s.line.n],rfl,by simpa [Event.Within] using inside,by simp [Event.Granted]⟩

theorem loggedTrans (before : Logged s t true) (after : Logged t u ok) : Logged s u ok := by
  obtain ⟨early,first,within,granted⟩ := before
  obtain ⟨later,second,within',granted'⟩ := after
  refine ⟨early ++ later,by rw [second,first,List.append_assoc],?_,?_⟩
  · intro e mem
    exact (List.mem_append.mp mem).elim (within e) (within' e)
  · rw [granted']
    constructor
    · intro all e mem
      exact (List.mem_append.mp mem).elim (granted.mp rfl e) (all e)
    · intro all e mem
      exact all e (List.mem_append_right _ mem)

/- What the loop finds: a buffer of the size in `*n`, and a place in it for the terminator. -/
structure Room (len : Nat) (s : State a) : Prop where
  held : s.line.bytes.length = s.line.n
  nul : len < s.line.n

theorem sizeHalf (a : Arch) : 2 ^ a.bits = 2 * (a.objectMax + 1) := by
  cases a <;> rfl

theorem sizeSmall {n : Nat} (small : n ≤ a.objectMax) : a.size (n * 2) = n * 2 ∧ a.size (n + 1) = n + 1 := by
  have half := sizeHalf a
  unfold Arch.size
  exact ⟨Nat.mod_eq_of_lt (by omega),Nat.mod_eq_of_lt (by omega)⟩

theorem ssizeSmall {n : Nat} (small : n ≤ a.objectMax) : a.ssize n = n := by
  have half := sizeHalf a
  unfold Arch.ssize
  rw [Int.bmod_eq_of_le] <;> omega

theorem reallocMoves {size : Nat} (did : s.realloc heap size = (ok,t)) :
    Logged s t ok ∧ t.stream = s.stream ∧ (ok = true → t.line.n = size ∧ t.line.bytes.length = size ∧
      ∀ len ≤ s.line.bytes.length, len ≤ size → t.line.bytes.take len = s.line.bytes.take len) := by
  unfold State.realloc at did
  split at did
  · obtain ⟨rfl,rfl⟩ := Prod.mk.inj did
    exact ⟨⟨[.realloc size false],rfl,by simp [Event.Within],by simp [Event.Granted]⟩,rfl,by simp⟩
  · rename_i line done
    obtain ⟨rfl,rfl⟩ := Prod.mk.inj did
    exact ⟨⟨[.realloc size true],rfl,by simp [Event.Within],by simp [Event.Granted]⟩,
        rfl,fun _ => reallocSome done⟩

theorem roomSmall (room : Room len s) : len + 1 ≤ a.objectMax := by
  have small := lineSmall s.line
  have nul := room.nul
  rw [room.held] at small
  omega

theorem ensureMoves (room : Room len s) (did : ensure heap len s = (ok,t)) :
    Logged s t ok ∧ t.stream = s.stream ∧
      (ok = true → Room (len + 1) t ∧ t.line.bytes.take len = s.line.bytes.take len) := by
  have small := roomSmall room
  have nul := room.nul
  have next : a.size (len + 2) = len + 2 := (sizeSmall small).2
  unfold ensure at did
  rw [next] at did
  split at did
  · have double : a.size (s.line.n * 2) = s.line.n * 2 := (sizeSmall (room.held ▸ lineSmall s.line)).1
    rw [double] at did
    obtain ⟨logged,same,grown⟩ := reallocMoves did
    refine ⟨logged,same,fun done => ?_⟩
    obtain ⟨n,size,kept⟩ := grown done
    exact ⟨⟨by rw [size,n],by omega⟩,kept len (by rw [room.held]; omega) (by omega)⟩
  · obtain ⟨rfl,rfl⟩ := Prod.mk.inj did
    exact ⟨loggedSame rfl,rfl,fun _ => ⟨⟨room.held,by omega⟩,rfl⟩⟩

theorem storeTake {c : UInt8} (room : Room (len + 1) s) :
    Room (len + 1) (s.store len c) ∧ (s.store len c).line.bytes.take (len + 1) = s.line.bytes.take len ++ [c] := by
  have inside : len < s.line.bytes.length := by
    have := room.nul
    rw [room.held]
    omega
  refine ⟨⟨by simpa [State.store] using room.held,by simpa [State.store] using room.nul⟩,?_⟩
  simp only [State.store,setBytes]
  rw [List.take_add_one,List.take_set_of_le (Nat.le_refl len)]
  simp [inside]

theorem passMoves {c : UInt8} (room : Room len s) (grown : ensure heap len s = (true,t)) :
    Logged s (t.store len c) true ∧ Room (len + 1) (t.store len c) ∧ a.size (len + 1) = len + 1 ∧
      (t.store len c).line.bytes.take (len + 1) = s.line.bytes.take len ++ [c] ∧
      (t.store len c).stream = s.stream := by
  obtain ⟨logged,same,kept⟩ := ensureMoves room grown
  obtain ⟨wide,before⟩ := kept rfl
  obtain ⟨after,taken⟩ := storeTake (c := c) wide
  have inside : len < t.line.n := Nat.lt_of_succ_lt wide.nul
  have small : len ≤ a.objectMax := Nat.le_of_succ_le (roomSmall room)
  refine ⟨loggedTrans logged (loggedStore inside),after,(sizeSmall small).2,?_,same⟩
  rw [taken,before]

theorem fillMoves {stream : Bytes} {r : Option Nat} (room : Room len s) (did : fill heap stream len s = (r,t)) :
    Logged s t r.isSome ∧ ∀ len' ∈ r, Room len' t ∧ len' = len + (cut lineFeed stream).1.length ∧
      t.line.bytes.take len' = s.line.bytes.take len ++ (cut lineFeed stream).1 ∧
      t.stream = (cut lineFeed stream).2 := by
  induction stream generalizing len s with
  | nil =>
    obtain ⟨rfl,rfl⟩ := Prod.mk.inj did
    refine ⟨loggedSame rfl,?_⟩
    rintro len' is
    cases Option.some.inj is
    exact ⟨⟨room.held,room.nul⟩,rfl,(List.append_nil _).symm,rfl⟩
  | cons c rest ih =>
    unfold fill at did
    have room' : Room len {s with stream := rest} := ⟨room.held,room.nul⟩
    cases grown : ensure heap len {s with stream := rest} with
    | mk ok mid =>
      rw [grown] at did
      cases ok with
      | false =>
        obtain ⟨rfl,rfl⟩ := Prod.mk.inj did
        exact ⟨(ensureMoves room' grown).1,by simp⟩
      | true =>
        obtain ⟨logged,after,next,text,same⟩ := passMoves (c := c) room' grown
        have stored : Logged s (mid.store len c) true := logged
        simp only [if_true,next] at did
        by_cases here : c = lineFeed
        · rw [if_pos here] at did
          obtain ⟨rfl,rfl⟩ := Prod.mk.inj did
          rw [here,cutHere,← here]
          refine ⟨stored,?_⟩
          rintro len' is
          cases Option.some.inj is
          exact ⟨after,rfl,text,same⟩
        · rw [if_neg here] at did
          obtain ⟨later,ends⟩ := ih after did
          refine ⟨loggedTrans stored later,fun len' is => ?_⟩
          obtain ⟨fits,count,line,left⟩ := ends len' is
          rw [cutOther here]
          refine ⟨fits,by rw [count,List.length_cons]; omega,?_,left⟩
          rw [line,text,List.append_assoc,List.singleton_append]

inductive Answered (s : State a) : Int → State a → Prop where
  | refused {t : State a} (logged : Logged s t false) : Answered s (-1) t
  | ended {t : State a} (none' : s.stream = []) (logged : Logged s t true) : Answered s (-1) t
  | line {t : State a} {ret : Int} (some' : s.stream ≠ []) (logged : Logged s t true)
      (count : ret = (cut lineFeed s.stream).1.length)
      (text : t.line.bytes.take (cut lineFeed s.stream).1.length = (cut lineFeed s.stream).1)
      (nul : t.line.bytes[(cut lineFeed s.stream).1.length]? = some 0)
      (left : t.stream = (cut lineFeed s.stream).2) : Answered s ret t

theorem startMoves
    (did : (if s.line.lineptr.isNone ∨ s.line.n < 2 then s.realloc heap 128 else (true,s)) = (ok,t)) :
    Logged s t ok ∧ t.stream = s.stream ∧ (ok = true → Room 0 t) := by
  split at did
  · obtain ⟨logged,same,grown⟩ := reallocMoves did
    refine ⟨logged,same,fun done => ?_⟩
    obtain ⟨n,size,-⟩ := grown done
    exact ⟨by rw [size,n],by omega⟩
  · rename_i usable
    rw [not_or,Option.isNone_iff_eq_none,← ne_eq,← Option.isSome_iff_ne_none] at usable
    obtain ⟨rfl,rfl⟩ := Prod.mk.inj did
    exact ⟨loggedSame rfl,rfl,fun _ => ⟨lineHeld usable.1,by omega⟩⟩

theorem getlineAnswered {ret : Int} (did : getline heap s = (ret,t)) : Answered s ret t := by
  unfold getline at did
  cases started : (if s.line.lineptr.isNone ∨ s.line.n < 2 then s.realloc heap 128 else (true,s)) with
  | mk ok mid =>
    obtain ⟨logged,same,room⟩ := startMoves started
    rw [started] at did
    cases ok with
    | false =>
      obtain ⟨rfl,rfl⟩ := Prod.mk.inj did
      exact .refused logged
    | true =>
      simp only [if_true,same] at did
      cases filled : fill heap s.stream 0 mid with
      | mk r last =>
        rw [filled] at did
        obtain ⟨read,ends⟩ := fillMoves (room rfl) filled
        have all : Logged s last r.isSome := loggedTrans logged read
        cases r with
        | none =>
          obtain ⟨rfl,rfl⟩ := Prod.mk.inj did
          exact .refused all
        | some len =>
          obtain ⟨fits,count,text,left⟩ := ends len rfl
          rw [Nat.zero_add] at count
          subst count
          by_cases none' : s.stream = []
          · have nothing : (cut lineFeed s.stream).1.length = 0 := by rw [none']; rfl
            simp only [nothing,if_true] at did
            obtain ⟨rfl,rfl⟩ := Prod.mk.inj did
            exact .ended none' all
          · have some' : ¬ (cut lineFeed s.stream).1.length = 0 := Nat.ne_of_gt (cutSome lineFeed none')
            simp only [if_neg some'] at did
            obtain ⟨rfl,rfl⟩ := Prod.mk.inj did
            have inside := fits.nul
            rw [← fits.held] at inside
            refine .line none' (loggedTrans all (loggedStore fits.nul)) ?_ ?_ ?_ left
            · exact ssizeSmall (Nat.le_of_succ_le (roomSmall fits))
            · simpa [State.store,List.take_set_of_le] using text
            · simp [State.store,inside]

end steps

def State.scribble (s : State a) (writes : List (Nat × UInt8)) : State a :=
  {s with line := writes.foldl (fun l w => l.set w.1 w.2) s.line}

structure Answer where
  ret : Int
  buffer : Bytes
  deriving DecidableEq, Repr

def Answer.text (x : Answer) : Bytes := x.buffer.take x.ret.toNat

def readAll (heap : Heap) (use : Answer → List (Nat × UInt8)) : Nat → State a → List Answer × Option (State a)
  | 0,_ => ([],none)
  | fuel+1,s =>
      let (ret,s) := getline heap s
      if ret = -1 then ([],some s)
      else
        let answer := ⟨ret,s.line.bytes⟩
        let (answers,last) := readAll heap use fuel (s.scribble (use answer))
        (answer::answers,last)

def Answer.Sound (x : Answer) : Prop :=
  0 < x.ret ∧ (x.text.length : Int) = x.ret ∧ x.buffer[x.ret.toNat]? = some 0

section runs
variable {s : State a}

theorem readAllMoves (heap : Heap) (use : Answer → List (Nat × UInt8)) {fuel : Nat}
    (enough : s.stream.length < fuel) :
    ∃ last ok, (readAll heap use fuel s).2 = some last ∧ Logged s last ok ∧
      (ok = true → Lines lineFeed s.stream ((readAll heap use fuel s).1.map Answer.text) ∧
        ∀ x ∈ (readAll heap use fuel s).1, x.Sound) := by
  induction fuel generalizing s with
  | zero => contradiction
  | succ fuel ih =>
    unfold readAll
    cases did : getline heap s with
    | mk ret t =>
      cases getlineAnswered did with
      | refused logged => exact ⟨t,false,rfl,logged,by simp⟩
      | ended none' logged =>
        refine ⟨t,true,rfl,logged,fun _ => ⟨?_,by simp⟩⟩
        rw [none']
        exact .done
      | line some' logged count text nul left =>
        have positive : 0 < (cut lineFeed s.stream).1.length := cutSome lineFeed some'
        have more : ¬ ret = -1 := by omega
        have shorter : (t.scribble (use ⟨ret,t.line.bytes⟩)).stream.length < fuel := by
          have := cutShorter lineFeed some'
          change t.stream.length < fuel
          rw [left]
          omega
        obtain ⟨last,ok,ends,later,sound⟩ := ih shorter
        have here : (cut lineFeed s.stream).1 = (Answer.mk ret t.line.bytes).text := by
          rw [Answer.text,count,Int.toNat_natCast,text]
        simp only [if_neg more]
        refine ⟨last,ok,ends,loggedTrans logged (loggedTrans (loggedSame rfl) later),fun granted => ?_⟩
        obtain ⟨lines,each⟩ := sound granted
        refine ⟨?_,?_⟩
        · rw [List.map_cons,← here]
          refine .more some' ?_
          rw [← left]
          exact lines
        · intro x mem
          rcases List.mem_cons.mp mem with rfl | mem
          · refine ⟨by change 0 < ret; omega,by rw [← here,count],?_⟩
            change t.line.bytes[ret.toNat]? = some 0
            rw [count,Int.toNat_natCast]
            exact nul
          · exact each x mem

def reads (heap : Heap) (use : Answer → List (Nat × UInt8)) (line : Line a) (content : Bytes) :
    Option (List Answer × List Event) :=
  let run := readAll heap use (content.length + 1) ⟨line,content,0,[]⟩
  run.2.map (fun s => (run.1,s.log))

theorem getlineSplits (heap : Heap) (use : Answer → List (Nat × UInt8)) (line : Line a) (content : Bytes) :
    ∃ answers log, reads heap use line content = some (answers,log) ∧
      (∀ place limit, Event.store place limit ∈ log → place < limit) ∧
      ((∀ size, Event.realloc size false ∉ log) →
        (answers.map Answer.text).flatten = content ∧
        (∀ x ∈ answers, 0 < x.ret ∧ (x.text.length : Int) = x.ret ∧ x.buffer[x.ret.toNat]? = some 0) ∧
        (∀ x ∈ answers.dropLast, Ended lineFeed x.text) ∧
        ∀ x ∈ answers, Ended lineFeed x.text ∨ lineFeed ∉ x.text) := by
  have enough : (State.mk line content 0 []).stream.length < content.length + 1 := Nat.lt_succ_self _
  obtain ⟨last,ok,ends,⟨more,log,within,granted⟩,split⟩ := readAllMoves heap use enough
  rw [List.nil_append] at log
  have run : reads heap use line content =
      some ((readAll heap use (content.length + 1) ⟨line,content,0,[]⟩).1,last.log) := by
    simp only [reads,ends,Option.map_some]
  refine ⟨_,_,run,?_,fun memory => ?_⟩
  · intro place limit mem
    exact within _ (log ▸ mem)
  · have all : ok = true := by
      rw [granted]
      intro e mem
      cases e with
      | store place limit => trivial
      | realloc size given =>
        cases given with
        | true => rfl
        | false => exact absurd (log ▸ mem) (memory size)
    obtain ⟨lines,sound⟩ := split all
    refine ⟨linesFlatten lines,sound,?_,?_⟩
    · intro x mem
      exact linesEnded lines _ (by rw [← List.map_dropLast]; exact List.mem_map_of_mem mem)
    · intro x mem
      exact linesOpen lines _ (List.mem_map_of_mem mem)

def twoBytes : Line .x64 := ⟨some ⟨[1,2],by decide⟩,2,by simp⟩

theorem getlineSplitsTwo : ∃ answers log,
    reads (fun _ => some (fun _ => 7)) (fun _ => [(0,0)]) twoBytes [104,105,10,106] = some (answers,log) ∧
      (answers.map Answer.text).flatten = [104,105,10,106] := by
  obtain ⟨answers,log,run,-,split⟩ :=
    getlineSplits (fun _ => some (fun _ => 7)) (fun _ => [(0,0)]) twoBytes [104,105,10,106]
  refine ⟨answers,log,run,(split ?_).1⟩
  have logs : (reads (fun _ => some (fun _ => 7)) (fun _ => [(0,0)]) twoBytes [104,105,10,106]).map Prod.snd =
      some [.store 0 2,.realloc 4 true,.store 1 4,.store 2 4,.store 3 4,.store 0 4,.store 1 4] := by
    decide +kernel
  rw [run] at logs
  cases Option.some.inj logs
  simp

end runs

/- The two stores of hev_fsh_token_manager_reload, which stay in the buffer. -/
def strip (n : Nat) (s : State a) : State a :=
  let s := s.store (n - 1) 0
  if tokenStrLen < CText.strlen s.line.bytes then s.store tokenStrLen 0 else s

def reloadLines (B : Balancer Token) (heap : Heap) : Nat → RbTree Token → State a →
    Option (RbTree Token × State a)
  | 0,_,_ => none
  | fuel+1,tree,s =>
      let (n,s) := getline heap s
      if 0 < n then
        let s := strip n.toNat s
        let (res,token) := tokenFromString .zero s.line.bytes
        reloadLines B heap fuel (if res < 0 then tree else TokenManager.insert B tree token) s
      else some (tree,s)

def unread (a : Arch) (content : Bytes) : State a := ⟨⟨none,0,by simp⟩,content,0,[]⟩

def reload (a : Arch) (B : Balancer Token) (heap : Heap) (tree : RbTree Token) (file : Option Bytes) :
    Option (RbTree Token × List Event) :=
  match file with
  | none => some (clear B tree,[])
  | some content =>
      (reloadLines B heap (content.length + 1) (clear B tree) (unread a content)).map
        (fun (tree,s) => (tree,s.log))

section reloading
variable {s : State a}

theorem getlineCut (bs : Bytes) : TokenManager.getline bs = cut lineFeed bs := by
  induction bs with
  | nil => rfl
  | cons c rest ih =>
    by_cases here : c = lineFeed
    · subst here
      rw [cutHere]
      rfl
    · rw [cutOther here,← ih]
      unfold TokenManager.getline
      rw [List.dropWhile_cons_of_pos (by simpa using here),List.takeWhile_cons_of_pos (by simpa using here)]
      split <;> rfl

theorem fromStringSame {text text' : Bytes} (same : CText.content text = CText.content text') :
    tokenFromString .zero text = tokenFromString .zero text' := by
  have well : (tokenFromString .zero text).1 = 0 ↔ (tokenFromString .zero text').1 = 0 := by
    rw [textAccepts,textAccepts,same]
  by_cases done : (tokenFromString .zero text).1 = 0
  · have done' := well.mp done
    refine Prod.ext (done.trans done'.symm) (toStringInjective ?_)
    rw [textEncodes _ _ done,textEncodes _ _ done',same]
  · rw [textRejects _ _ done,textRejects _ _ (fun done' => done (well.mpr done'))]

theorem stripContent {line : Bytes} (some' : line ≠ []) (text : s.line.bytes.take line.length = line) :
    CText.content (strip line.length s).line.bytes = CText.content (stripped line) := by
  have positive := List.length_pos_of_ne_nil some'
  have inside : line.length ≤ s.line.bytes.length := by
    have := congrArg List.length text
    rw [List.length_take] at this
    omega
  have front : CText.content (s.line.bytes.set (line.length - 1) 0) = CText.content line.dropLast := by
    rw [contentSet (by omega),← contentTake,List.dropLast_eq_take]
    nth_rewrite 3 [← text]
    rw [List.take_take,Nat.min_eq_left (Nat.sub_le _ _)]
  have shape : (strip line.length s).line.bytes = if tokenStrLen < CText.strlen (s.line.bytes.set (line.length - 1) 0)
      then (s.line.bytes.set (line.length - 1) 0).set tokenStrLen 0 else s.line.bytes.set (line.length - 1) 0 := by
    unfold strip
    simp only [State.store,setBytes]
    split <;> simp
  rw [shape,cutContent,front,strippedContent some',contentTake]

theorem stripStream (n : Nat) : (strip n s).stream = s.stream := by
  unfold strip
  simp only
  split <;> rfl

theorem bytesRecorded (l : Line a) : l.bytes.length ≤ l.n := by
  cases held : l.lineptr with
  | none => simp [Line.bytes,held]
  | some b => exact (lineHeld (by simp [held])).le

theorem stripLogged {n : Nat} (inside : n - 1 < s.line.n) : Logged s (strip n s) true := by
  unfold strip
  simp only
  split
  · rename_i long
    have whole := bytesRecorded (s.store (n - 1) 0).line
    have short := strlenLe (s.store (n - 1) 0).line.bytes
    exact loggedTrans (loggedStore inside) (loggedStore (by omega))
  · exact loggedStore inside

theorem reloadLinesMoves (B : Balancer Token) (heap : Heap) (tree : RbTree Token) {fuel : Nat}
    (enough : s.stream.length < fuel) :
    ∃ tree' last ok, reloadLines B heap fuel tree s = some (tree',last) ∧ Logged s last ok ∧
      (ok = true → ∀ m, s.stream.length ≤ m → tree' = readLines B m tree s.stream) := by
  induction fuel generalizing s tree with
  | zero => contradiction
  | succ fuel ih =>
    unfold reloadLines
    cases did : getline heap s with
    | mk ret t =>
      cases getlineAnswered did with
      | refused logged => exact ⟨tree,t,false,rfl,logged,by simp⟩
      | ended none' logged =>
        refine ⟨tree,t,true,rfl,logged,fun _ m _ => ?_⟩
        cases m with
        | zero => rfl
        | succ m => rw [readLines,if_pos none']
      | line some' logged count text nul left =>
        have positive : 0 < (cut lineFeed s.stream).1.length := cutSome lineFeed some'
        have more : 0 < ret := by omega
        have shorter : (cut lineFeed s.stream).2.length < s.stream.length := cutShorter lineFeed some'
        have number : ret.toNat = (cut lineFeed s.stream).1.length := by omega
        have same := fromStringSame (stripContent (List.ne_nil_of_length_pos positive) text)
        simp only [if_pos more,number,same]
        have fits : t.stream.length < fuel := by
          rw [left]
          omega
        have inside : (cut lineFeed s.stream).1.length - 1 < t.line.n := by
          have whole := bytesRecorded t.line
          have front := congrArg List.length text
          rw [List.length_take] at front
          omega
        obtain ⟨tree',last,ok,run,later,reads⟩ := ih (readLine B tree (cut lineFeed s.stream).1)
          (s := strip (cut lineFeed s.stream).1.length t) (by rwa [stripStream])
        refine ⟨tree',last,ok,run,loggedTrans logged (loggedTrans (stripLogged inside) later),
            fun granted m long => ?_⟩
        cases m with
        | zero => omega
        | succ m =>
          have rest : t.stream.length ≤ m := by
            rw [left]
            omega
          rw [readLines,if_neg some',getlineCut]
          simp only
          rw [reads granted m (by rwa [stripStream]),stripStream]
          simp only [left]

theorem reloadSame (B : Balancer Token) (heap : Heap) (tree : RbTree Token) (file : Option Bytes) :
    ∃ tree' log, reload a B heap tree file = some (tree',log) ∧ (∀ e ∈ log, e.Within) ∧
      ((∀ e ∈ log, e.Granted) → tree' = reloadFile B tree file) := by
  cases file with
  | none => exact ⟨_,_,rfl,by simp,fun _ => rfl⟩
  | some content =>
    obtain ⟨tree',last,ok,run,⟨more,log,within,granted⟩,same⟩ :=
      reloadLinesMoves B heap (clear B tree) (s := unread a content) (Nat.lt_succ_self _)
    rw [show (unread a content).log = [] from rfl,List.nil_append] at log
    have run' : reload a B heap tree (some content) = some (tree',last.log) := by
      unfold reload
      simp only
      rw [show (unread a content).stream = content from rfl] at run
      rw [run]
      rfl
    refine ⟨tree',last.log,run',fun e mem => within e (log ▸ mem),fun all => ?_⟩
    exact same (granted.mpr (fun e mem => all e (log ▸ mem))) _ (Nat.le_refl _)

end reloading

end HevFsh.Compat
