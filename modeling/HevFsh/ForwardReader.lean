import HevFsh.Protocol

/-! The reading side of hev-fsh-client-forward: hev_fsh_client_forward_read_token
and then the loop of hev_fsh_client_forward_dispatch, fed byte by byte. -/
namespace HevFsh.ClientForward
open Protocol

inductive Reply where
  | token (t : Token)
  | connect (t : Token)
  | keepAlive
  deriving DecidableEq, Repr

def Reply.bytes : Reply → Bytes
  | .token t => message 1 .token t.bytes
  | .connect t => message 1 .connect t.bytes
  | .keepAlive => message 1 .keepAlive []

def Reply.isToken : Reply → Bool
  | .token _ => true
  | _ => false

def Begun : List Reply → Prop
  | [] => True
  | r::rest => r.isToken = true ∧ ∀ x ∈ rest, x.isToken = false

theorem begunSnoc {rs : List Reply} {r : Reply} (begun : Begun rs) (first : r.isToken = true ↔ rs = []) :
    Begun (rs ++ [r]) := by
  cases rs with
  | nil => exact ⟨first.mpr rfl,by simp⟩
  | cons x rest =>
    have plain : r.isToken = false := by simpa using mt first.mp (by simp)
    refine ⟨begun.1,fun y mem => ?_⟩
    rcases List.mem_append.mp mem with old | new
    · exact begun.2 y old
    · rw [List.mem_singleton.mp new]; exact plain

/- The recv the task is in; `stopped` is a return on an unexpected command. -/
inductive Reading where
  | tokenMessage | token | message | connect | stopped
  deriving DecidableEq, Repr

def Reading.size : Reading → Nat
  | .tokenMessage | .message => 2
  | .token | .connect => 16
  | .stopped => 0

structure Reader where
  reading : Reading
  got : Bytes
  heard : List Reply
  deriving DecidableEq, Repr

def Reader.start : Reader := ⟨.tokenMessage,[],[]⟩

def received : Reading → Bytes → List Reply → Reader
  | .tokenMessage,[_,cmd],heard =>
      if Command.ofByte cmd = some .token then ⟨.token,[],heard⟩ else ⟨.stopped,[],heard⟩
  | .token,bytes,heard =>
      if size : bytes.length = 16 then ⟨.message,[],heard ++ [.token ⟨bytes,size⟩]⟩
      else ⟨.stopped,[],heard⟩
  | .message,[_,cmd],heard => match Command.ofByte cmd with
      | some .connect => ⟨.connect,[],heard⟩
      | some .keepAlive => ⟨.message,[],heard ++ [.keepAlive]⟩
      | _ => ⟨.stopped,[],heard⟩
  | .connect,bytes,heard =>
      if size : bytes.length = 16 then ⟨.message,[],heard ++ [.connect ⟨bytes,size⟩]⟩
      else ⟨.stopped,[],heard⟩
  | _,_,heard => ⟨.stopped,[],heard⟩

def feed (r : Reader) (b : UInt8) : Reader :=
  if r.reading = .stopped then r
  else if r.got.length + 1 = r.reading.size then received r.reading (r.got ++ [b]) r.heard
  else {r with got := r.got ++ [b]}

def read (r : Reader) (bytes : Bytes) : Reader := bytes.foldl feed r

theorem readAppend (r : Reader) (a b : Bytes) : read r (a ++ b) = read (read r a) b := by
  simp [read]

section recv
variable {reading : Reading} {heard : List Reply}

theorem readWaits (running : reading ≠ .stopped) {got bytes : Bytes}
    (short : got.length + bytes.length < reading.size) :
    read ⟨reading,got,heard⟩ bytes = ⟨reading,got ++ bytes,heard⟩ := by
  induction bytes generalizing got with
  | nil => simp [read]
  | cons b bytes ih =>
    simp only [List.length_cons] at short
    have more : ¬ got.length + 1 = reading.size := by omega
    have next : feed ⟨reading,got,heard⟩ b = ⟨reading,got ++ [b],heard⟩ := by
      simp [feed,running,more]
    have left : (got ++ [b]).length + bytes.length < reading.size := by
      rw [List.length_append,List.length_singleton]
      omega
    rw [read,List.foldl_cons,next,← read,ih left]
    simp

theorem readReturns (running : reading ≠ .stopped) {bytes : Bytes}
    (size : bytes.length = reading.size) (positive : 0 < reading.size) :
    read ⟨reading,[],heard⟩ bytes = received reading bytes heard := by
  obtain ⟨first,last,rfl⟩ : ∃ first last, bytes = first ++ [last] := by
    rcases List.eq_nil_or_concat bytes with empty | ⟨first,last,shape⟩
    · simp [empty] at size; omega
    · exact ⟨first,last,by simpa using shape⟩
  simp only [List.length_append,List.length_cons,List.length_nil] at size
  rw [readAppend,readWaits running (by simp only [List.length_nil]; omega)]
  simp [read,feed,running,show first.length + 1 = reading.size by omega]

end recv

def Reply.expected (r : Reply) : Reading := if r.isToken then .tokenMessage else .message

theorem readHeader (r : Reply) (heard : List Reply) :
    read ⟨r.expected,[],heard⟩ (r.bytes.take 2) = match r with
      | .token _ => ⟨.token,[],heard⟩
      | .connect _ => ⟨.connect,[],heard⟩
      | .keepAlive => ⟨.message,[],heard ++ [.keepAlive]⟩ := by
  cases r <;> rfl

theorem readReply (r : Reply) (heard : List Reply) :
    read ⟨r.expected,[],heard⟩ r.bytes = ⟨.message,[],heard ++ [r]⟩ := by
  rw [← List.take_append_drop 2 r.bytes,readAppend,readHeader]
  cases r with
  | token t =>
    have size : ((Reply.token t).bytes.drop 2).length = 16 := t.size
    simp only
    rw [readReturns (by simp) size (by simp [Reading.size])]
    simp [received,size]
    rfl
  | connect t =>
    have size : ((Reply.connect t).bytes.drop 2).length = 16 := t.size
    simp only
    rw [readReturns (by simp) size (by simp [Reading.size])]
    simp [received,size]
    rfl
  | keepAlive => rfl

theorem readPart (r : Reply) (heard : List Reply) {part : Bytes} (initial : part <+: r.bytes)
    (less : part ≠ r.bytes) :
    (read ⟨r.expected,[],heard⟩ part).reading ≠ .stopped ∧
      (read ⟨r.expected,[],heard⟩ part).heard = heard := by
  have shape := List.prefix_iff_eq_take.mp initial
  have short : part.length < r.bytes.length := by
    refine Nat.lt_of_le_of_ne initial.length_le (fun same => less ?_)
    exact initial.eq_of_length same
  have running : r.expected ≠ .stopped := by cases r <;> simp [Reply.expected,Reply.isToken]
  by_cases two : part.length < 2
  · have size : r.expected.size = 2 := by cases r <;> rfl
    rw [readWaits running (by simp only [List.length_nil]; omega)]
    exact ⟨running,rfl⟩
  · have head : part = r.bytes.take 2 ++ part.drop 2 := by
      conv => lhs; rw [← List.take_append_drop 2 part]
      rw [shape,List.take_take,Nat.min_eq_left (by omega)]
    rw [head,readAppend,readHeader]
    cases r with
    | token t =>
      have size : (Reply.token t).bytes.length = 18 := by simp [Reply.bytes,message,t.size]
      simp only
      rw [readWaits (by simp) (by simp [Reading.size]; omega)]
      exact ⟨by simp,rfl⟩
    | connect t =>
      have size : (Reply.connect t).bytes.length = 18 := by simp [Reply.bytes,message,t.size]
      simp only
      rw [readWaits (by simp) (by simp [Reading.size]; omega)]
      exact ⟨by simp,rfl⟩
    | keepAlive =>
      have size : Reply.keepAlive.bytes.length = 2 := rfl
      omega

theorem readReplies {rs : List Reply} (begun : Begun rs) :
    read .start (rs.flatMap Reply.bytes) =
      ⟨if rs = [] then .tokenMessage else .message,[],rs⟩ := by
  have later : ∀ (rest : List Reply) heard, (∀ x ∈ rest, x.isToken = false) →
      read ⟨.message,[],heard⟩ (rest.flatMap Reply.bytes) = ⟨.message,[],heard ++ rest⟩ := by
    intro rest
    induction rest with
    | nil => simp [read]
    | cons x rest ih =>
      intro heard plain
      have expected : x.expected = .message := by simp [Reply.expected,plain x (by simp)]
      have next := readReply x heard
      rw [expected] at next
      rw [List.flatMap_cons,readAppend,next,ih _ (fun y mem => plain y (by simp [mem]))]
      simp
  cases rs with
  | nil => rfl
  | cons r rest =>
    obtain ⟨first,plain⟩ := begun
    have expected : r.expected = .tokenMessage := by simp [Reply.expected,first]
    have next := readReply r []
    rw [expected] at next
    rw [List.flatMap_cons,readAppend,Reader.start,next,later rest _ plain]
    simp

theorem readFramed {rs : List Reply} {r : Reply} {part : Bytes} (begun : Begun (rs ++ [r]))
    (initial : part <+: r.bytes) (less : part ≠ r.bytes) :
    (read .start (rs.flatMap Reply.bytes ++ part)).reading ≠ .stopped ∧
      (read .start (rs.flatMap Reply.bytes ++ part)).heard = rs := by
  cases rs with
  | nil =>
    have expected : r.expected = .tokenMessage := by simp [Reply.expected,begun.1]
    have result := readPart r [] initial less
    rw [expected] at result
    exact result
  | cons x rest =>
    have expected : r.expected = .message := by
      simp [Reply.expected,begun.2 r (by simp)]
    have started : Begun (x :: rest) := ⟨begun.1,fun y mem => begun.2 y (by simp [mem])⟩
    rw [readAppend,readReplies started,if_neg (by simp),← expected]
    exact readPart r (x :: rest) initial less

end HevFsh.ClientForward
