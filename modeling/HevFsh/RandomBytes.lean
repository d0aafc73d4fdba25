import HevFsh.TokenText
import Mathlib.Data.List.Induction

/-! hev_random_get_bytes: the random device, the generator it falls back on, and each byte
that they leave in the buffer; then hev_fsh_protocol_token_generate on these bytes. -/
namespace HevFsh.Random
open Protocol TokenText

/- What the system answers: to open, to the k-th gettimeofday, to srand and rand, and to the
k-th read of the process. A read is asked for a size; none is its error. -/
structure System (R : Type) where
  urandom : Int
  random : Int
  timeOfDay : Nat → Nat × Nat
  srand : Nat → R
  rand : R → Nat × R
  read : Nat → Nat → Option Bytes
  short : ∀ k size, ∀ bs ∈ read k size, bs.length ≤ size

/- `init` and `fd`, and of the process the state of rand and the number of reads so far. -/
structure Static (R : Type) where
  init : Bool
  fd : Int
  seed : R
  reads : Nat

inductive Source (R : Type) where
  | device (read size index : Nat)
  | generator (seed : R)

structure Store (R : Type) where
  place : Nat
  value : UInt8
  source : Source R

structure Work (R : Type) where
  size : Nat
  cp : Nat
  loseCounter : Nat
  reads : Nat
  seed : R
  log : List (Store R)

variable {R : Type}

def discard (sys : System R) : Nat → R → R
  | 0,seed => seed
  | n+1,seed => discard sys n (sys.rand seed).2

def initialise (sys : System R) (st : Static R) : Static R :=
  if st.init then st
  else
    let fd := if sys.urandom < 0 then sys.random else sys.urandom
    let (sec,usec) := sys.timeOfDay 0
    let seed := sys.srand ((sec ^^^ usec) % 2 ^ 32)
    let (sec,usec) := sys.timeOfDay 1
    {st with init := true, fd := fd, seed := discard sys ((sec ^^^ usec) &&& 0x1F) seed}

def count : Option Bytes → Int
  | none => -1
  | some bs => bs.length

def delivered (w : Work R) (bs : Bytes) : List (Store R) :=
  bs.mapIdx (fun i b => ⟨w.cp + i,b,.device w.reads w.size i⟩)

def lose (w : Work R) : Work R := {w with loseCounter := w.loseCounter + 1, reads := w.reads + 1}

def gain (w : Work R) (bs : Bytes) : Work R where
  size := w.size - bs.length
  cp := w.cp + bs.length
  loseCounter := 0
  reads := w.reads + 1
  seed := w.seed
  log := w.log ++ delivered w bs

def readLoop (sys : System R) : Nat → Work R → Option (Work R)
  | 0,_ => none
  | fuel+1,w =>
      if w.size = 0 then some w
      else
        let answer := sys.read w.reads w.size
        if count answer ≤ 0 then
          if 16 < w.loseCounter then some (lose w) else readLoop sys fuel (lose w)
        else readLoop sys fuel (gain w (answer.getD []))

def randByte (sys : System R) (seed : R) : UInt8 := UInt8.ofNat (((sys.rand seed).1 >>> 7) &&& 0xFF)

def draw (sys : System R) (w : Work R) : Work R :=
  let store := ⟨w.cp,randByte sys w.seed,.generator w.seed⟩
  {w with cp := w.cp + 1, seed := (sys.rand w.seed).2, log := w.log ++ [store]}

def fallback (sys : System R) : Nat → Work R → Work R
  | 0,w => w
  | n+1,w => fallback sys n (draw sys w)

def getBytes (sys : System R) (fuel : Nat) (st : Static R) (size : Nat) : Option (List (Store R) × Static R) :=
  let st := initialise sys st
  let w : Work R := ⟨size,0,0,st.reads,st.seed,[]⟩
  let finish := fun w : Work R => (w.log,{st with seed := w.seed, reads := w.reads})
  if 0 ≤ st.fd then
    (readLoop sys fuel w).map fun w => if w.size = 0 then finish w else finish (fallback sys w.size w)
  else some (finish (fallback sys size w))

def written (log : List (Store R)) (memory : Bytes) : Bytes := log.foldl (fun m e => m.set e.place e.value) memory

@[simp] theorem writtenLength (log : List (Store R)) (memory : Bytes) :
    (written log memory).length = memory.length := by
  unfold written
  induction log generalizing memory with
  | nil => rfl
  | cons e log ih => rw [List.foldl_cons,ih,List.length_set]

/- hev_fsh_protocol_token_generate, the bytes of the token as they are before it. -/
def generate (sys : System R) (fuel : Nat) (st : Static R) (token : Token) : Option (Token × Static R) :=
  (getBytes sys fuel st 16).map fun (log,st) =>
    (tokenGenerate ⟨written log token.bytes,by rw [writtenLength,token.size]⟩,st)

def System.yields (sys : System R) : Source R → Option UInt8
  | .device read size index => (sys.read read size).bind (fun bs => bs[index]?)
  | .generator seed => some (randByte sys seed)

section stores

theorem writtenRange {log : List (Store R)} {memory : Bytes}
    (order : log.map Store.place = List.range log.length) (fits : log.length ≤ memory.length) :
    written log memory = log.map Store.value ++ memory.drop log.length := by
  induction log using List.reverseRecOn with
  | nil => rfl
  | append_singleton log e ih =>
    rw [List.length_append,List.length_singleton] at fits order ⊢
    rw [List.map_append,List.range_succ] at order
    obtain ⟨before,last⟩ := List.append_inj' order rfl
    have place : e.place = (log.map Store.value).length := by simpa using last
    have done := ih before (by omega)
    have room : log.length < memory.length := by omega
    unfold written at done ⊢
    rw [List.foldl_append,done,List.foldl_cons,List.foldl_nil,place,List.set_append_right _ _ (Nat.le_refl _),
      Nat.sub_self,List.drop_eq_getElem_cons room,List.set_cons_zero,List.map_append,List.append_assoc]
    rfl

end stores

section loops
variable {sys : System R} {w : Work R}

/- Each place up to cp was stored to once, in order, with a byte that its source gave. -/
structure Filled (sys : System R) (w : Work R) : Prop where
  places : w.log.map Store.place = List.range w.cp
  sources : ∀ e ∈ w.log, sys.yields e.source = some e.value

theorem gainFilled {bs : Bytes} (filled : Filled sys w) (answer : sys.read w.reads w.size = some bs) :
    Filled sys (gain w bs) where
  places := by
    have next : (delivered w bs).map Store.place = (List.range bs.length).map (w.cp + ·) := by
      apply List.ext_getElem <;> simp [delivered]
    rw [gain,List.map_append,filled.places,next,List.range_add]
  sources e mem := by
    rcases List.mem_append.mp mem with old | new
    · exact filled.sources e old
    · obtain ⟨i,inside,rfl⟩ := List.mem_mapIdx.mp new
      simp [System.yields,answer,inside]

theorem drawFilled (filled : Filled sys w) : Filled sys (draw sys w) where
  places := by rw [draw,List.map_append,filled.places,List.range_succ]; rfl
  sources e mem := by
    rcases List.mem_append.mp mem with old | new
    · exact filled.sources e old
    · cases List.mem_singleton.mp new
      rfl

theorem fallbackFilled (n : Nat) (filled : Filled sys w) :
    Filled sys (fallback sys n w) ∧ (fallback sys n w).cp = w.cp + n := by
  induction n generalizing w with
  | zero => exact ⟨filled,rfl⟩
  | succ n ih =>
    obtain ⟨done,place⟩ := ih (drawFilled filled)
    refine ⟨done,?_⟩
    rw [fallback,place]
    simp only [draw]
    omega

/- What is left of the loop: each byte may cost seventeen failures and the read that brings
it, and eighteen failures end it. -/
def credit (w : Work R) : Nat := 18 * w.size + (18 - w.loseCounter)

theorem readLoopFills {total : Nat} (fuel : Nat) (filled : Filled sys w) (whole : w.cp + w.size = total)
    (patient : w.loseCounter ≤ 17) (enough : credit w ≤ fuel) :
    ∃ last, (∀ extra, readLoop sys (fuel + extra) w = some last) ∧ Filled sys last ∧
      last.cp + last.size = total := by
  induction fuel generalizing w with
  | zero =>
    unfold credit at enough
    omega
  | succ fuel ih =>
    have step : ∀ extra, fuel + 1 + extra = (fuel + extra) + 1 := fun extra => by omega
    simp only [step]
    unfold readLoop
    by_cases done : w.size = 0
    · simp only [if_pos done]
      exact ⟨w,fun _ => rfl,filled,whole⟩
    · simp only [if_neg done]
      unfold credit at enough
      by_cases failed : count (sys.read w.reads w.size) ≤ 0
      · simp only [if_pos failed]
        have kept : Filled sys (lose w) := ⟨filled.places,filled.sources⟩
        by_cases last : 16 < w.loseCounter
        · simp only [if_pos last]
          exact ⟨lose w,fun _ => rfl,kept,whole⟩
        · simp only [if_neg last]
          have patient' : (lose w).loseCounter ≤ 17 := by
            simp only [lose]
            omega
          have enough' : credit (lose w) ≤ fuel := by
            simp only [credit,lose]
            omega
          exact ih kept whole patient' enough'
      · simp only [if_neg failed]
        cases answer : sys.read w.reads w.size with
        | none => rw [answer] at failed; exact absurd (by decide) failed
        | some bs =>
          have short := sys.short _ _ bs answer
          have some' : 0 < bs.length := by
            rw [answer] at failed
            simp only [count] at failed
            omega
          have whole' : (gain w bs).cp + (gain w bs).size = total := by
            simp only [gain]
            omega
          have enough' : credit (gain w bs) ≤ fuel := by
            simp only [credit,gain]
            omega
          exact ih (gainFilled filled answer) whole' (Nat.zero_le _) enough'

theorem getBytesFills (sys : System R) (st : Static R) (size : Nat) :
    ∃ log last, (∀ extra, getBytes sys (18 * (size + 1) + extra) st size = some (log,last)) ∧
      log.map Store.place = List.range size ∧ ∀ e ∈ log, sys.yields e.source = some e.value := by
  have start : Filled sys ⟨size,0,0,(initialise sys st).reads,(initialise sys st).seed,[]⟩ := ⟨rfl,by simp⟩
  unfold getBytes
  simp only
  by_cases opened : 0 ≤ (initialise sys st).fd
  · simp only [if_pos opened]
    obtain ⟨w,run,filled,whole⟩ := readLoopFills (18 * (size + 1)) start (Nat.zero_add size) (Nat.zero_le _)
      (by simp only [credit]; omega)
    simp only [run,Option.map_some]
    by_cases full : w.size = 0
    · simp only [if_pos full]
      rw [full,Nat.add_zero] at whole
      exact ⟨_,_,fun _ => rfl,whole ▸ filled.places,filled.sources⟩
    · simp only [if_neg full]
      obtain ⟨done,place⟩ := fallbackFilled w.size filled
      rw [whole] at place
      refine ⟨_,_,fun _ => rfl,?_,done.sources⟩
      rw [← place]
      exact done.places
  · simp only [if_neg opened]
    obtain ⟨done,place⟩ := fallbackFilled size start
    refine ⟨_,_,fun _ => rfl,?_,done.sources⟩
    rw [done.places,place,Nat.zero_add]

end loops

section tokens

theorem maskedLow (x : UInt16) :
    ((x &&& 0x0FFF) ||| 0x4000).toUInt8 = x.toUInt8 ∧ ((x &&& 0x3FFF) ||| 0x8000).toUInt8 = x.toUInt8 := by
  have ones : (0x0FFF : UInt16).toUInt8 = -1 ∧ (0x3FFF : UInt16).toUInt8 = -1 := by decide
  have zeros : (0x4000 : UInt16).toUInt8 = 0 ∧ (0x8000 : UInt16).toUInt8 = 0 := by decide
  simp only [UInt16.toUInt8_or,UInt16.toUInt8_and,ones,zeros,UInt8.and_neg_one,UInt8.or_zero,and_self]

theorem maskedHigh (x : UInt16) :
    (((x &&& 0x0FFF) ||| 0x4000) >>> 8).toUInt8 = ((x >>> 8).toUInt8 &&& 0x0F) ||| 0x40 ∧
    (((x &&& 0x3FFF) ||| 0x8000) >>> 8).toUInt8 = ((x >>> 8).toUInt8 &&& 0x3F) ||| 0x80 := by
  simp only [UInt16.shiftRight_or,UInt16.shiftRight_and,UInt16.toUInt8_or,UInt16.toUInt8_and]
  exact ⟨rfl,rfl⟩

theorem packBack (random : Token) : pack random.bytes (unpack random.bytes) = random.bytes := by
  rw [← List.take_append_drop 10 (pack random.bytes (unpack random.bytes)),packUnpack random.size]
  exact List.take_append_drop 10 random.bytes

theorem generateBytes (random : Token) : (tokenGenerate random).bytes =
    (random.bytes.set 6 ((byteAt random.bytes 6 &&& 0x0F) ||| 0x40)).set 8
      ((byteAt random.bytes 8 &&& 0x3F) ||| 0x80) := by
  have back := packBack random
  have six : byteAt random.bytes 6 = ((unpack random.bytes).timeHighVer >>> 8).toUInt8 := by
    nth_rewrite 1 [← back]
    rfl
  have eight : byteAt random.bytes 8 = ((unpack random.bytes).clockSeq >>> 8).toUInt8 := by
    nth_rewrite 1 [← back]
    rfl
  have packed : (tokenGenerate random).bytes = ((pack random.bytes (unpack random.bytes)).set 6
      (((((unpack random.bytes).timeHighVer &&& 0x0FFF) ||| 0x4000) >>> 8).toUInt8)).set 8
        (((((unpack random.bytes).clockSeq &&& 0x3FFF) ||| 0x8000) >>> 8).toUInt8) := by
    unfold tokenGenerate
    simp only [pack,(maskedLow _).1,(maskedLow _).2]
    rfl
  rw [packed,back,(maskedHigh _).1,(maskedHigh _).2,six,eight]

/- A token that is told from none: version 4 in its nibble, the variant in its two bits, and
every other bit as the random bytes had it. -/
structure Stamped (random : Bytes) (t : Token) : Prop where
  nonzero : t ≠ .zero
  version : byteAt t.bytes 6 >>> 4 = 4
  variant : byteAt t.bytes 8 >>> 6 = 2
  versionRest : byteAt t.bytes 6 &&& 0x0F = byteAt random 6 &&& 0x0F
  variantRest : byteAt t.bytes 8 &&& 0x3F = byteAt random 8 &&& 0x3F
  others : ∀ i, i ≠ 6 → i ≠ 8 → byteAt t.bytes i = byteAt random i

theorem stampRead {c mask stamp shift : UInt8} (low : mask >>> shift = 0) (apart : stamp &&& mask = 0) :
    ((c &&& mask) ||| stamp) >>> shift = stamp >>> shift ∧ ((c &&& mask) ||| stamp) &&& mask = c &&& mask := by
  constructor
  · rw [UInt8.shiftRight_or,UInt8.shiftRight_and,low,UInt8.and_zero,UInt8.zero_or]
  · have parts : ((c &&& mask) ||| stamp) &&& mask = ((c &&& mask) &&& mask) ||| (stamp &&& mask) :=
      UInt8.toBitVec_inj.1 BitVec.and_or_distrib_right
    rw [parts,apart,UInt8.or_zero,UInt8.and_assoc,UInt8.and_self]

theorem generateStamped (random : Token) : Stamped random.bytes (tokenGenerate random) := by
  have bytes := generateBytes random
  have six : byteAt (tokenGenerate random).bytes 6 = (byteAt random.bytes 6 &&& 0x0F) ||| 0x40 := by
    rw [bytes]
    simp [byteAt,random.size]
  have eight : byteAt (tokenGenerate random).bytes 8 = (byteAt random.bytes 8 &&& 0x3F) ||| 0x80 := by
    rw [bytes]
    simp [byteAt,random.size]
  have high : ∀ c : UInt8, ((c &&& 0x0F) ||| 0x40) >>> 4 = 4 ∧ ((c &&& 0x0F) ||| 0x40) &&& 0x0F = c &&& 0x0F :=
    fun c => stampRead rfl rfl
  have clock : ∀ c : UInt8, ((c &&& 0x3F) ||| 0x80) >>> 6 = 2 ∧ ((c &&& 0x3F) ||| 0x80) &&& 0x3F = c &&& 0x3F :=
    fun c => stampRead rfl rfl
  have version : byteAt (tokenGenerate random).bytes 6 >>> 4 = 4 := by
    rw [six]
    exact (high _).1
  refine ⟨?_,version,?_,?_,?_,?_⟩
  · intro zero
    rw [zero] at version
    exact absurd version (by decide)
  · rw [eight]
    exact (clock _).1
  · rw [six]
    exact (high _).2
  · rw [eight]
    exact (clock _).2
  · intro i notSix notEight
    rw [bytes]
    simp [byteAt,List.getElem?_set_ne (Ne.symm notSix),List.getElem?_set_ne (Ne.symm notEight)]

theorem randomComplete (sys : System R) (st : Static R) :
    (∀ buf beyond : Bytes, ∃ log last,
      (∀ extra, getBytes sys (18 * (buf.length + 1) + extra) st buf.length = some (log,last)) ∧
      log.map Store.place = List.range buf.length ∧
      (∀ e ∈ log, sys.yields e.source = some e.value) ∧
      written log (buf ++ beyond) = log.map Store.value ++ beyond) ∧
    ∀ token : Token, ∃ log last t,
      (∀ extra, getBytes sys (18 * (16 + 1) + extra) st 16 = some (log,last)) ∧
      (∀ extra, generate sys (18 * (16 + 1) + extra) st token = some (t,last)) ∧
      log.map Store.place = List.range 16 ∧ Stamped (log.map Store.value) t := by
  constructor
  · intro buf beyond
    obtain ⟨log,last,run,places,sources⟩ := getBytesFills sys st buf.length
    have size : log.length = buf.length := by simpa using congrArg List.length places
    refine ⟨log,last,run,places,sources,?_⟩
    rw [writtenRange (by rw [places,size]) (by rw [List.length_append]; omega),size,List.drop_left]
  · intro token
    obtain ⟨log,last,run,places,-⟩ := getBytesFills sys st 16
    have size : log.length = 16 := by simpa using congrArg List.length places
    have bytes : written log token.bytes = log.map Store.value := by
      rw [writtenRange (by rw [places,size]) (by rw [size,token.size]),size,← token.size,List.drop_length,
        List.append_nil]
    have whole : (written log token.bytes).length = 16 := by rw [writtenLength,token.size]
    refine ⟨log,last,tokenGenerate ⟨written log token.bytes,whole⟩,run,fun extra => ?_,places,?_⟩
    · rw [generate,run extra]
      rfl
    · rw [← bytes]
      exact generateStamped ⟨written log token.bytes,whole⟩

def moody : System Nat where
  urandom := -1
  random := 3
  timeOfDay k := (k,7)
  srand n := n
  rand n := (n * 128,n + 1)
  read k size := if k % 3 = 0 then none else some ([5,6].take (if k % 3 = 1 then 0 else size))
  short k size bs mem := by
    by_cases error : k % 3 = 0
    · simp [error] at mem
    · have is : [5,6].take (if k % 3 = 1 then 0 else size) = bs := by simpa [error] using mem
      rw [← is,List.length_take]
      split <;> omega

theorem randomCompleteMoody : ∃ log last,
    (∀ extra, getBytes moody (18 * (3 + 1) + extra) ⟨false,0,0,0⟩ 3 = some (log,last)) ∧
    log.map Store.place = List.range 3 ∧ (∀ e ∈ log, moody.yields e.source = some e.value) ∧
    written log ([1,2,3] ++ [4]) = log.map Store.value ++ [4] :=
  (randomComplete moody ⟨false,0,0,0⟩).1 [1,2,3] [4]

end tokens

end HevFsh.Random
