import HevFsh.Transitions
import HevFsh.BoundedQueue

/-! hev_task_io_us_splice: two descriptors' inputs carried to each other's outputs
through a buffer for each direction. What the calls on the descriptors and the
yielder return is up to the environment. -/
namespace HevFsh.TaskIoSplice
open Transitions BoundedQueue

abbrev Bytes := List UInt8

inductive Dir where
  | forward
  | backward
  deriving DecidableEq, Repr

/- What a call returned; a failed one says whether errno was EAGAIN. -/
inductive Result (α : Type) where
  | returned (value : α)
  | failed (again : Bool)
  deriving DecidableEq, Repr

inductive Io where
  | splice
  | read (chunk : Bytes)
  | readAgain
  | readEnd
  | wrote (chunk : Bytes)
  | writeAgain
  | writeFailed
  | shutdown
  deriving DecidableEq, Repr

structure Splicer (size : Nat) where
  buf : Fifo UInt8 size
  res : Int32
  deriving DecidableEq, Repr

section splicer
variable {size : Nat}

def readHalf (self : Splicer size) (s : Result Bytes) : Option (Splicer size × List Io) :=
  if self.buf.room = 0 then some ({ self with res := 1 },[])
  else match s with
    | .returned chunk =>
        if fit : chunk.length ≤ self.buf.room then
          if chunk = [] then some ({ self with res := -1 },[.readEnd])
          else some (⟨self.buf.push chunk fit,1⟩,[.read chunk])
        else none
    | .failed true => some ({ self with res := 0 },[.readAgain])
    | .failed false => some ({ self with res := -1 },[.readEnd])

def writeHalf (self : Splicer size) (s : Result Nat) : Option (Splicer size × List Io) :=
  if self.buf.items = [] then
    if self.res < 0 then some (self,[.shutdown]) else some (self,[])
  else match s with
    | .returned n =>
        if n ≤ self.buf.items.length then
          if n = 0 then some ({ self with res := -1 },[.writeFailed])
          else some (⟨self.buf.pop n,1⟩,[.wrote (self.buf.items.take n)])
        else none
    | .failed true => some ({ self with res := 0 },[.writeAgain])
    | .failed false => some ({ self with res := -1 },[.writeFailed])

end splicer

inductive YieldType where
  | yield
  | waitio
  deriving DecidableEq, Repr

/- How the loop goes on after both directions had their turn; `none` is the break. -/
def yieldType (f b : Int32) : Option YieldType :=
  if 0 < f ∨ 0 < b then some .yield
  else if f &&& b = 0 then some .waitio
  else none

inductive Pc where
  | enter (d : Dir)
  | write (d : Dir)
  | yielding (type : YieldType)
  | done
  deriving DecidableEq, Repr

structure Relay (size : Nat) where
  f : Splicer size
  b : Splicer size
  pc : Pc
  deriving DecidableEq, Repr

inductive Action (Y : Type) where
  | skip
  | readv (s : Result Bytes)
  | writev (s : Result Nat)
  | yielder (y : Y)

inductive Event (Y : Type) where
  | io (d : Dir) (e : Io)
  | yielded (type : YieldType) (y : Y)
  deriving DecidableEq, Repr

section loop
variable {size : Nat} {Y : Type}

def Relay.dir (r : Relay size) : Dir → Splicer size
  | .forward => r.f
  | .backward => r.b

def Relay.setDir (r : Relay size) (d : Dir) (self : Splicer size) : Relay size :=
  match d with
  | .forward => { r with f := self }
  | .backward => { r with b := self }

def Relay.after (r : Relay size) : Dir → Pc
  | .forward => .enter .backward
  | .backward => match yieldType r.f.res r.b.res with
      | some type => .yielding type
      | none => .done

def Relay.leave (r : Relay size) (d : Dir) : Relay size := { r with pc := r.after d }

def step (yielder : YieldType → Y → Int) (r : Relay size) (a : Action Y) : Option (Relay size × List (Event Y)) :=
  match r.pc,a with
  | .enter d,.skip => if (r.dir d).res < 0 then some (r.leave d,[]) else none
  | .enter d,.readv s =>
      if 0 ≤ (r.dir d).res then do
        let (self,es) ← readHalf (r.dir d) s
        some ({ r.setDir d self with pc := .write d },(.splice :: es).map (.io d))
      else none
  | .write d,.writev s => do
      let (self,es) ← writeHalf (r.dir d) s
      some ((r.setDir d self).leave d,es.map (.io d))
  | .yielding type,.yielder y =>
      some ({ r with pc := if yielder type y ≠ 0 then .done else .enter .forward },[.yielded type y])
  | _,_ => none

def relay (size : Nat) (yielder : YieldType → Y → Int) : Machine (Relay size) (Action Y) (Event Y) where
  init := ⟨⟨.empty _ _,1⟩,⟨.empty _ _,1⟩,.enter .forward⟩
  step := step yielder

end loop

section direction
variable {size : Nat} {sp sp' : Splicer size} {h es : List Io}

def readBytes (h : List Io) : Bytes := h.flatMap (fun e => match e with
  | .read chunk => chunk
  | _ => [])

def writtenBytes (h : List Io) : Bytes := h.flatMap (fun e => match e with
  | .wrote chunk => chunk
  | _ => [])

def isRead : Io → Bool
  | .read _ | .readAgain | .readEnd => true
  | _ => false

def isWrite : Io → Bool
  | .wrote _ | .writeAgain | .writeFailed => true
  | _ => false

@[simp] theorem readBytesAppend (h h' : List Io) : readBytes (h ++ h') = readBytes h ++ readBytes h' :=
  List.flatMap_append

@[simp] theorem writtenBytesAppend (h h' : List Io) :
    writtenBytes (h ++ h') = writtenBytes h ++ writtenBytes h' := List.flatMap_append

inductive ReadMoves (sp : Splicer size) : Splicer size → List Io → Prop where
  | full (none' : sp.buf.room = 0) : ReadMoves sp { sp with res := 1 } []
  | got (chunk : Bytes) (fit : chunk.length ≤ sp.buf.room) :
      ReadMoves sp ⟨sp.buf.push chunk fit,1⟩ [.read chunk]
  | again : ReadMoves sp { sp with res := 0 } [.readAgain]
  | ended : ReadMoves sp { sp with res := -1 } [.readEnd]

inductive WriteMoves (sp : Splicer size) : Splicer size → List Io → Prop where
  | shut (none' : sp.buf.items = []) (ended : sp.res < 0) : WriteMoves sp sp [.shutdown]
  | idle (none' : sp.buf.items = []) (going : ¬ sp.res < 0) : WriteMoves sp sp []
  | sent (n : Nat) : WriteMoves sp ⟨sp.buf.pop n,1⟩ [.wrote (sp.buf.items.take n)]
  | again (some' : sp.buf.items ≠ []) : WriteMoves sp { sp with res := 0 } [.writeAgain]
  | failed : WriteMoves sp { sp with res := -1 } [.writeFailed]

theorem readMoves {s : Result Bytes} (taken : readHalf sp s = some (sp',es)) : ReadMoves sp sp' es := by
  unfold readHalf at taken
  split at taken
  · rename_i none'
    cases Option.some.inj taken
    exact .full none'
  · cases s with
    | returned chunk =>
      simp only at taken
      split at taken <;> try contradiction
      rename_i fit
      split at taken <;> cases Option.some.inj taken
      · exact .ended
      · exact .got chunk fit
    | failed again =>
      cases again <;> cases Option.some.inj taken
      · exact .ended
      · exact .again

theorem writeMoves {s : Result Nat} (taken : writeHalf sp s = some (sp',es)) : WriteMoves sp sp' es := by
  unfold writeHalf at taken
  split at taken
  · rename_i none'
    split at taken <;> cases Option.some.inj taken
    · rename_i ended
      exact .shut none' ended
    · rename_i going
      exact .idle none' going
  · rename_i some'
    cases s with
    | returned n =>
      simp only at taken
      split at taken <;> try contradiction
      split at taken <;> cases Option.some.inj taken
      · exact .failed
      · exact .sent n
    | failed again =>
      cases again <;> cases Option.some.inj taken
      · exact .failed
      · exact .again some'

structure Carried (sp : Splicer size) (midway : Bool) (h : List Io) : Prop where
  conserved : readBytes h = writtenBytes h ++ sp.buf.items
  code : sp.res = -1 ∨ sp.res = 0 ∨ sp.res = 1
  shut : ∀ before after, h = before ++ .shutdown :: after →
    after = [] ∧ lastOf isRead before = some .readEnd ∧ writtenBytes before = readBytes before
  closed : .shutdown ∈ h → midway = false ∧ sp.res < 0
  found : midway = true → sp.res < 0 → lastOf isRead h = some .readEnd
  drained : midway = false → sp.res < 0 → .writeFailed ∈ h ∨ sp.buf.items = []
  stuck : lastOf isWrite h = some .writeAgain → sp.buf.items ≠ []
  waits : midway = false → sp.res = 0 → sp.buf.items ≠ [] → lastOf isWrite h = some .writeAgain

theorem carriedInit : Carried (⟨.empty _ _,1⟩ : Splicer size) false [] where
  conserved := rfl
  code := .inr (.inr rfl)
  shut before after split := by simp at split
  closed mem := by contradiction
  found midway := by contradiction
  drained _ ended := by contradiction
  stuck last := by contradiction
  waits _ _ some' := absurd rfl some'

theorem Carried.unshut (carried : Carried sp true h) : .shutdown ∉ h := by
  intro mem
  have := (carried.closed mem).1
  contradiction

theorem readCarried (carried : Carried sp false h) (going : 0 ≤ sp.res) (moves : ReadMoves sp sp' es) :
    Carried sp' true (h ++ .splice :: es) := by
  have unshut : .shutdown ∉ h := fun mem => absurd (carried.closed mem).2 (Int32.not_lt.mpr going)
  have unshut' : .shutdown ∉ h ++ .splice :: es := by
    cases moves <;> simp [unshut]
  have written : writtenBytes (h ++ .splice :: es) = writtenBytes h := by
    cases moves <;> simp [writtenBytes]
  have writes : lastOf isWrite (h ++ .splice :: es) = lastOf isWrite h := by
    cases moves <;> simp [lastOf,isWrite]
  constructor
  case conserved =>
    rw [written,readBytesAppend,carried.conserved]
    cases moves <;> simp [readBytes]
  case code => cases moves <;> simp
  case shut =>
    intro before after split
    exact absurd (by rw [split]; simp) unshut'
  case closed => exact fun mem => absurd mem unshut'
  case found =>
    intro _ ended
    cases moves with
    | full none' => contradiction
    | got chunk fit => contradiction
    | again => contradiction
    | ended => simp [lastOf,isRead]
  case drained => intro between; contradiction
  case stuck =>
    rw [writes]
    intro last
    cases moves <;> simp [carried.stuck last]
  case waits => intro between; contradiction

theorem writeCarried (carried : Carried sp true h) (moves : WriteMoves sp sp' es) :
    Carried sp' false (h ++ es) := by
  have unshut := carried.unshut
  have reads : readBytes (h ++ es) = readBytes h := by
    cases moves <;> simp [readBytes]
  have conserved : readBytes (h ++ es) = writtenBytes (h ++ es) ++ sp'.buf.items := by
    rw [reads,carried.conserved,writtenBytesAppend]
    cases moves <;> simp [writtenBytes]
  constructor
  case conserved => exact conserved
  case code =>
    have code := carried.code
    cases moves <;> simp [code]
  case shut =>
    intro before after split
    have mem : .shutdown ∈ h ++ es := by rw [split]; simp
    cases moves with
    | shut none' ended =>
      obtain ⟨rfl,-,rfl⟩ := (List.append_cons_inj_of_notMem unshut List.not_mem_nil).mp split
      have bytes := carried.conserved
      rw [none',List.append_nil] at bytes
      exact ⟨rfl,carried.found rfl ended,bytes.symm⟩
    | idle none' going => simp [unshut] at mem
    | sent n => simp [unshut] at mem
    | again some' => simp [unshut] at mem
    | failed => simp [unshut] at mem
  case closed =>
    intro mem
    refine ⟨rfl,?_⟩
    cases moves with
    | shut none' ended => exact ended
    | idle none' going => simp [unshut] at mem
    | sent n => simp [unshut] at mem
    | again some' => simp [unshut] at mem
    | failed => simp [unshut] at mem
  case found => intro midway; contradiction
  case drained =>
    intro _ ended
    cases moves with
    | shut none' ended => exact .inr none'
    | idle none' going => exact .inr none'
    | sent n => contradiction
    | again some' => contradiction
    | failed => exact .inl (by simp)
  case stuck =>
    intro last
    cases moves with
    | shut none' ended =>
      rw [lastOfNext] at last
      exact carried.stuck last
    | idle none' going =>
      rw [List.append_nil] at last
      exact carried.stuck last
    | sent n => simp [lastOfNext,isWrite] at last
    | again some' => exact some'
    | failed => simp [lastOfNext,isWrite] at last
  case waits =>
    intro _ zero some'
    cases moves with
    | shut none' ended => exact absurd none' some'
    | idle none' going => exact absurd none' some'
    | sent n => exact absurd (show (1 : Int32) = 0 from zero) (by decide)
    | again some' =>
      rw [lastOfNext]
      rfl
    | failed => exact absurd (show (-1 : Int32) = 0 from zero) (by decide)

end direction

section relays
variable {size : Nat} {Y : Type} {yielder : YieldType → Y → Int} {r r' : Relay size}
variable {log : Log (Relay size) (Event Y)} {es : List (Event Y)} {d d' : Dir}

inductive Moves (yielder : YieldType → Y → Int) (r : Relay size) : Relay size → List (Event Y) → Prop where
  | skips {d : Dir} (here : r.pc = .enter d) (ended : (r.dir d).res < 0) : Moves yielder r (r.leave d) []
  | reads {d : Dir} {sp : Splicer size} {es : List Io} (here : r.pc = .enter d) (going : 0 ≤ (r.dir d).res)
      (half : ReadMoves (r.dir d) sp es) :
      Moves yielder r { r.setDir d sp with pc := .write d } ((.splice :: es).map (.io d))
  | writes {d : Dir} {sp : Splicer size} {es : List Io} (here : r.pc = .write d) (half : WriteMoves (r.dir d) sp es) :
      Moves yielder r ((r.setDir d sp).leave d) (es.map (.io d))
  | yields {type : YieldType} (y : Y) (here : r.pc = .yielding type) :
      Moves yielder r { r with pc := if yielder type y ≠ 0 then .done else .enter .forward } [.yielded type y]

theorem stepMoves {a : Action Y} (taken : step yielder r a = some (r',es)) : Moves yielder r r' es := by
  unfold step at taken
  split at taken <;> try contradiction
  · rename_i d here
    split at taken <;> try contradiction
    rename_i ended
    cases Option.some.inj taken
    exact .skips here ended
  · rename_i d s here
    split at taken <;> try contradiction
    rename_i going
    simp only [bind,Option.bind_eq_some_iff] at taken
    obtain ⟨⟨sp,es⟩,half,last⟩ := taken
    cases Option.some.inj last
    exact .reads here going (readMoves half)
  · rename_i d s here
    simp only [bind,Option.bind_eq_some_iff] at taken
    obtain ⟨⟨sp,es⟩,half,last⟩ := taken
    cases Option.some.inj last
    exact .writes here (writeMoves half)
  · rename_i type y here
    cases Option.some.inj taken
    exact .yields y here

def history (d : Dir) (log : Log (Relay size) (Event Y)) : List Io := log.filterMap (fun x => match x.2 with
  | .io d' e => if d' = d then some e else none
  | .yielded _ _ => none)

theorem historyOwn (d : Dir) (log : Log (Relay size) (Event Y)) (r : Relay size) (es : List Io) :
    history d (log ++ (es.map (Event.io d)).map (r,·)) = history d log ++ es := by
  unfold history
  rw [List.filterMap_append,List.map_map,List.filterMap_map]
  simp

theorem historyOther (other : d' ≠ d) (log : Log (Relay size) (Event Y)) (r : Relay size) (es : List Io) :
    history d (log ++ (es.map (Event.io d')).map (r,·)) = history d log := by
  unfold history
  rw [List.filterMap_append,List.map_map,List.filterMap_map]
  simp [other]

theorem dirSet (r : Relay size) (d d' : Dir) (sp : Splicer size) :
    (r.setDir d sp).dir d' = if d' = d then sp else r.dir d' := by
  cases d <;> cases d' <;> rfl

@[simp] theorem dirLeave (r : Relay size) (d d' : Dir) : (r.leave d).dir d' = r.dir d' := by
  cases d' <;> rfl

@[simp] theorem dirPc (r : Relay size) (pc : Pc) (d : Dir) : ({ r with pc := pc } : Relay size).dir d = r.dir d := by
  cases d <;> rfl

theorem leavePc (r : Relay size) (d d' : Dir) : (r.leave d).pc ≠ .write d' := by
  unfold Relay.leave Relay.after
  cases d with
  | forward => simp
  | backward =>
    simp only
    split <;> simp

def Carries (r : Relay size) (log : Log (Relay size) (Event Y)) : Prop :=
  ∀ d, Carried (r.dir d) (decide (r.pc = .write d)) (history d log)

theorem carriesStep (moves : Moves yielder r r' es) (carries : Carries r log) :
    Carries r' (log ++ es.map (r,·)) := by
  intro x
  have before := carries x
  cases moves with
  | @skips d here ended =>
    rw [here] at before
    simpa [leavePc] using before
  | @reads d sp es here going half =>
    rw [here] at before
    by_cases same : x = d
    · subst same
      rw [historyOwn]
      simpa [dirSet] using readCarried (by simpa using before) going half
    · rw [historyOther (Ne.symm same)]
      simpa [dirSet,same,Ne.symm same] using before
  | @writes d sp es here half =>
    rw [here] at before
    by_cases same : x = d
    · subst same
      rw [historyOwn]
      simpa [dirSet,leavePc] using writeCarried (by simpa using before) half
    · rw [historyOther (Ne.symm same)]
      simpa [dirSet,same,Ne.symm same,leavePc] using before
  | @yields type y here =>
    rw [here] at before
    have quiet : history x (log ++ [(r,Event.yielded type y)]) = history x log := by simp [history]
    rw [List.map_singleton,quiet]
    by_cases stops : yielder type y ≠ 0
    · simpa [stops] using before
    · simpa [stops] using before

theorem yieldTypeNone {f b : Int32} (codeF : f = -1 ∨ f = 0 ∨ f = 1) (codeB : b = -1 ∨ b = 0 ∨ b = 1)
    (ends : yieldType f b = none) : f < 0 ∧ b < 0 := by
  rcases codeF with rfl | rfl | rfl <;> rcases codeB with rfl | rfl | rfl <;> revert ends <;> decide

theorem yieldTypeWaits {f b : Int32} (codeF : f = -1 ∨ f = 0 ∨ f = 1) (codeB : b = -1 ∨ b = 0 ∨ b = 1)
    (waits : yieldType f b = some .waitio) : f = -1 ∨ f = 0 := by
  rcases codeF with rfl | rfl | rfl <;> rcases codeB with rfl | rfl | rfl <;> revert waits <;> decide

def Served (d : Dir) (log : Log (Relay size) (Event Y)) : Prop :=
  ∃ before r₁ after, log = before ++
      (r₁,.io d .splice) :: after ∧ ∀ x ∈ after, ∀ type y, x.2 ≠ .yielded type y

theorem Served.next (served : Served d log) (r : Relay size) (es : List Io) :
    Served d (log ++ (es.map (Event.io d')).map (r,·)) := by
  obtain ⟨before,r₁,after,split,quiet⟩ := served
  refine ⟨before,r₁,after ++ (es.map (Event.io d')).map (r,·),by rw [split]; simp,?_⟩
  intro x mem
  rcases List.mem_append.mp mem with old | new
  · exact quiet x old
  · obtain ⟨e,inside,rfl⟩ := List.mem_map.mp new
    obtain ⟨io,-,rfl⟩ := List.mem_map.mp inside
    simp

theorem servedNow (d : Dir) (log : Log (Relay size) (Event Y)) (r : Relay size) (es : List Io) :
    Served d (log ++ ((.splice :: es).map (Event.io d)).map (r,·)) := by
  refine ⟨log,r,(es.map (Event.io d)).map (r,·),by simp,?_⟩
  intro x mem
  obtain ⟨e,inside,rfl⟩ := List.mem_map.mp mem
  obtain ⟨io,-,rfl⟩ := List.mem_map.mp inside
  simp

def Had (r : Relay size) (d : Dir) (log : Log (Relay size) (Event Y)) : Prop :=
  (r.dir d).res < 0 ∨ Served d log

def Turns (r : Relay size) (log : Log (Relay size) (Event Y)) : Prop :=
  match r.pc with
  | .enter .forward | .done => True
  | .write .forward => Served .forward log
  | .enter .backward => Had r .forward log
  | .write .backward => Had r .forward log ∧ Served .backward log
  | .yielding _ => Had r .forward log ∧ Had r .backward log

theorem turnsLeave (r : Relay size) (log : Log (Relay size) (Event Y)) (d : Dir) (had : Had r d log)
    (first : d = .backward → Had r .forward log) : Turns (r.leave d) log := by
  unfold Turns Relay.leave Relay.after
  cases d with
  | forward => exact had
  | backward =>
    simp only
    split <;> rename_i here <;> split at here <;> cases here
    · trivial
    · exact ⟨first rfl,had⟩

theorem turnsStep (moves : Moves yielder r r' es) (turns : Turns r log) : Turns r' (log ++ es.map (r,·)) := by
  unfold Turns at turns
  cases moves with
  | @skips d here ended =>
    rw [here] at turns
    rw [List.map_nil,List.append_nil]
    refine turnsLeave r log d (.inl ended) ?_
    rintro rfl
    exact turns
  | @reads d sp es here going half =>
    rw [here] at turns
    unfold Turns
    cases d with
    | forward => exact servedNow _ log r es
    | backward =>
      refine ⟨?_,servedNow _ log r es⟩
      exact turns.imp id (fun served => served.next r (.splice :: es))
  | @writes d sp es here half =>
    rw [here] at turns
    cases d with
    | forward => exact turnsLeave _ _ _ (.inr (Served.next turns r es)) (by simp)
    | backward =>
      refine turnsLeave _ _ _ (.inr (Served.next turns.2 r es)) (fun _ => ?_)
      exact turns.1.imp id (fun served => served.next r es)
  | @yields type y here =>
    unfold Turns
    by_cases stops : yielder type y ≠ 0 <;> simp [stops]

def Ended (r : Relay size) (d : Dir) : Prop := (r.dir d).res < 0 ∧ r.pc ≠ .write d

def Stopped (yielder : YieldType → Y → Int) (log : Log (Relay size) (Event Y)) : Prop :=
  ∃ before r₁ type y, log = before ++ [(r₁,.yielded type y)] ∧ yielder type y ≠ 0

def Exits (yielder : YieldType → Y → Int) (r : Relay size) (log : Log (Relay size) (Event Y)) : Prop :=
  r.pc = .done → (∀ d, Ended r d) ∨ Stopped yielder log

theorem exitsLeave (r : Relay size) (log : Log (Relay size) (Event Y)) (d : Dir)
    (code : ∀ d, (r.dir d).res = -1 ∨ (r.dir d).res = 0 ∨ (r.dir d).res = 1) :
    Exits yielder (r.leave d) log := by
  intro done
  refine .inl ?_
  cases d with
  | forward => contradiction
  | backward =>
    simp only [Relay.leave,Relay.after] at done
    split at done <;> try contradiction
    rename_i ends
    obtain ⟨f,b⟩ := yieldTypeNone (code .forward) (code .backward) ends
    intro d
    refine ⟨?_,leavePc r .backward d⟩
    rw [dirLeave]
    cases d with
    | forward => exact f
    | backward => exact b

theorem exitsStep (moves : Moves yielder r r' es) (carries : Carries r' (log ++ es.map (r,·))) :
    Exits yielder r' (log ++ es.map (r,·)) := by
  cases moves with
  | @skips d here ended =>
    exact exitsLeave _ _ _ (fun x => by simpa using (carries x).code)
  | @reads d sp es here going half => exact fun done => by contradiction
  | @writes d sp es here half =>
    exact exitsLeave _ _ _ (fun x => by simpa using (carries x).code)
  | @yields type y here =>
    intro done
    by_cases stops : yielder type y ≠ 0
    · exact .inr ⟨log,r,type,y,rfl,stops⟩
    · simp [stops] at done

def Typed (r : Relay size) : Prop := ∀ type, r.pc = .yielding type → yieldType r.f.res r.b.res = some type

theorem typedStep (moves : Moves yielder r r' es) : Typed r' := by
  have leaves : ∀ (r : Relay size) d, Typed (r.leave d) := by
    intro r d type here
    unfold Relay.leave Relay.after at *
    cases d with
    | forward => contradiction
    | backward =>
      simp only at here ⊢
      split at here
      · rename_i decided
        cases here
        exact decided
      · contradiction
  cases moves with
  | skips here ended => exact leaves _ _
  | reads here going half => exact fun type here => by contradiction
  | writes here half => exact leaves _ _
  | @yields old y here =>
    intro type here'
    by_cases stops : yielder old y ≠ 0 <;> simp [stops] at here'

theorem relayNext (going : r.pc ≠ .done) (y : Y) : ∃ a, (step yielder r a).isSome := by
  cases here : r.pc with
  | enter d =>
    by_cases ended : (r.dir d).res < 0
    · exact ⟨.skip,by simp [step,here,ended]⟩
    · have half : (readHalf (r.dir d) (.failed true)).isSome := by
        unfold readHalf
        split <;> rfl
      obtain ⟨out,is⟩ := Option.isSome_iff_exists.mp half
      exact ⟨.readv (.failed true),by simp [step,here,Int32.not_lt.mp ended,is]⟩
  | write d =>
    have half : (writeHalf (r.dir d) (.failed true)).isSome := by
      unfold writeHalf
      split
      · split <;> rfl
      · rfl
    obtain ⟨out,is⟩ := Option.isSome_iff_exists.mp half
    exact ⟨.writev (.failed true),by simp [step,here,is]⟩
  | yielding type => exact ⟨.yielder y,by simp [step,here]⟩
  | done => exact absurd here going

structure Inv (yielder : YieldType → Y → Int) (r : Relay size) (log : Log (Relay size) (Event Y)) : Prop where
  carries : Carries r log
  turns : Turns r log
  typed : Typed r
  exits : Exits yielder r log

theorem runInv {ok : Relay size → Action Y → Prop} (run : Run (relay size yielder) ok r log) :
    Inv yielder r log := by
  induction run with
  | start =>
    refine ⟨?_,trivial,fun _ here => by contradiction,fun done => by contradiction⟩
    intro d
    cases d <;> exact carriedInit
  | next run allowed taken ih =>
    have moves := stepMoves taken
    have carries := carriesStep moves ih.carries
    exact ⟨carries,turnsStep moves ih.turns,typedStep moves,exitsStep moves carries⟩

structure Relays (yielder : YieldType → Y → Int) (r : Relay size) (log : Log (Relay size) (Event Y)) : Prop where
  ordered : ∀ d, writtenBytes (history d log) <+: readBytes (history d log)
  shut : ∀ d before after, history d log = before ++ .shutdown :: after →
    after = [] ∧ lastOf isRead before = some .readEnd ∧ writtenBytes before = readBytes before
  delivered : ∀ d, Ended r d → .writeFailed ∉ history d log →
    writtenBytes (history d log) = readBytes (history d log)
  served : ∀ type, r.pc = .yielding type → ∀ d, ¬ Ended r d → Served d log
  exits : r.pc = .done → (∀ d, Ended r d) ∨ Stopped yielder log
  continues : r.pc ≠ .done → ∀ _ : Y, ∃ a, (step yielder r a).isSome

theorem relaysHold (size : Nat) {Y : Type} (yielder : YieldType → Y → Int) {r : Relay size}
    {log : Log (Relay size) (Event Y)} (run : Run (relay size yielder) (fun _ _ => True) r log) :
    Relays yielder r log where
  ordered d := ⟨_,((runInv run).carries d).conserved.symm⟩
  shut d := ((runInv run).carries d).shut
  delivered := by
    intro d ended clean
    have carried := (runInv run).carries d
    have empty := (carried.drained (decide_eq_false ended.2) ended.1).resolve_left clean
    have bytes := carried.conserved
    rw [empty,List.append_nil] at bytes
    exact bytes.symm
  served := by
    intro type here d going
    have turns := (runInv run).turns
    unfold Turns at turns
    rw [here] at turns
    have had : Had r d log := by
      cases d with
      | forward => exact turns.1
      | backward => exact turns.2
    exact had.resolve_left (fun ended => going ⟨ended,by simp [here]⟩)
  exits := (runInv run).exits
  continues := relayNext

def halfClosed : List (Action Int) :=
  [.readv (.returned [97]),.writev (.returned 1),.readv (.returned []),.writev (.failed true),.yielder 0,
    .readv (.failed true),.writev (.failed true),.skip,.yielder (-1)]

theorem relaysHoldHalfClosed : ∃ (r : Relay 4) (log : Log (Relay 4) (Event Int)), r.pc = .done ∧
    history .backward log = [.splice,.readEnd,.shutdown] ∧
    history .forward log = [.splice,.read [97],.wrote [97],.splice,.readAgain] ∧
    Relays (fun _ y => y) r log := by
  obtain ⟨r,log,run,shows⟩ := replayReaches (relay 4 (fun _ (y : Int) => y)) (fun _ _ => True) halfClosed
    (fun x => decide (x.1.pc = .done ∧ history .backward x.2 = [.splice,.readEnd,.shutdown] ∧
      history .forward x.2 = [.splice,.read [97],.wrote [97],.splice,.readAgain])) (by decide)
  obtain ⟨done,backward,forward⟩ := of_decide_eq_true shows
  exact ⟨r,log,done,backward,forward,relaysHold 4 _ run⟩

end relays

end HevFsh.TaskIoSplice
