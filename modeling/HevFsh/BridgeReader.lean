import HevFsh.Transitions
import Mathlib.Data.List.Basic
import Mathlib.Data.List.Infix

/-! hev_bridge_reader of hev-bridge.c. What ReadFile returns and how much send takes is up
to the environment; the log keeps what was read and what was sent. -/
namespace HevFsh.BridgeReader
open Transitions

abbrev Bytes := List UInt8

/- `left` is the way out by a send that failed. -/
inductive Pc where
  | reading
  | sending
  | ended
  | left
  deriving DecidableEq, Repr

structure Reader where
  pc : Pc
  buf : Bytes
  off : Nat
  drop : Bool
  deriving DecidableEq, Repr

inductive Outcome where
  | read (ok : Bool) (chunk : Bytes)
  | send (s : Int)
  deriving DecidableEq, Repr

inductive Io where
  | read (chunk : Bytes)
  | sent (bytes : Bytes)
  | shutdown
  deriving DecidableEq, Repr

def bufSize : Nat := 8192

def step (drain : Bool) (self : Reader) (outcome : Outcome) : Option (Reader × List Io) :=
  match self.pc,outcome with
  | .reading,.read ok chunk =>
      if bufSize < chunk.length then none
      else if ¬ ok ∨ chunk = [] then some ({ self with pc := .ended },[.shutdown])
      else if self.drop then some ({ self with buf := chunk, off := 0 },[.read chunk])
      else some ({ self with pc := .sending, buf := chunk, off := 0 },[.read chunk])
  | .sending,.send s =>
      if (self.buf.length - self.off : Nat) < s then none
      else if 0 < s then
        let pc := if self.off + s.toNat < self.buf.length then Pc.sending else .reading
        some ({ self with pc := pc, off := self.off + s.toNat },[.sent ((self.buf.drop self.off).take s.toNat)])
      else if drain then some ({ self with pc := .reading, drop := true },[])
      else some ({ self with pc := .left },[.shutdown])
  | _,_ => none

def reader (drain : Bool) : Machine Reader Outcome Io := ⟨⟨.reading,[],0,false⟩,step drain⟩

def Io.chunk : Io → Bytes
  | .read chunk => chunk
  | _ => []

def Io.bytes : Io → Bytes
  | .sent bytes => bytes
  | _ => []

def taken (log : Log Reader Io) : Bytes := log.flatMap (fun e => e.2.chunk)

def sent (log : Log Reader Io) : Bytes := log.flatMap (fun e => e.2.bytes)

def shutdowns (log : Log Reader Io) : Nat := log.countP (fun e => e.2 = .shutdown)

def Pc.over : Pc → Bool
  | .ended | .left => true
  | _ => false

section runs
variable {drain : Bool} {s s' : Reader} {log : Log Reader Io} {es : List Io}

inductive Moves (drain : Bool) (s : Reader) : Reader → List Io → Prop where
  | reads (chunk : Bytes) (here : s.pc = .reading) (some' : chunk ≠ []) (keeps : s.drop = false) :
      Moves drain s ⟨.sending,chunk,0,false⟩ [.read chunk]
  | drops (chunk : Bytes) (here : s.pc = .reading) (dropped : s.drop = true) :
      Moves drain s ⟨.reading,chunk,0,true⟩ [.read chunk]
  | ends (here : s.pc = .reading) : Moves drain s { s with pc := .ended } [.shutdown]
  | sends (n : Nat) (here : s.pc = .sending) (positive : 0 < n) (short : s.off + n < s.buf.length) :
      Moves drain s ⟨.sending,s.buf,s.off + n,s.drop⟩ [.sent ((s.buf.drop s.off).take n)]
  | completes (n : Nat) (here : s.pc = .sending) (all : s.buf.length ≤ s.off + n) :
      Moves drain s ⟨.reading,s.buf,s.off + n,s.drop⟩ [.sent ((s.buf.drop s.off).take n)]
  | fails (here : s.pc = .sending) (on : drain = true) : Moves drain s { s with pc := .reading, drop := true } []
  | leaves (here : s.pc = .sending) (off : drain = false) : Moves drain s { s with pc := .left } [.shutdown]

theorem stepMoves {outcome : Outcome} (taken : step drain s outcome = some (s',es)) : Moves drain s s' es := by
  cases outcome with
  | read ok chunk =>
    cases here : s.pc <;> simp only [step,here,reduceCtorEq] at taken
    split at taken <;> try contradiction
    split at taken
    · cases taken; exact .ends here
    · rename_i more
      have some' : chunk ≠ [] := fun empty => more (.inr empty)
      obtain ⟨pc,buf,off,drop⟩ := s
      cases here
      cases drop with
      | true => cases taken; exact .drops chunk rfl rfl
      | false => cases taken; exact .reads chunk rfl some' rfl
  | send n =>
    cases here : s.pc <;> simp only [step,here,reduceCtorEq] at taken
    split at taken <;> try contradiction
    split at taken
    · rename_i positive
      split at taken
      · rename_i short
        cases taken
        exact .sends n.toNat here (by omega) short
      · rename_i all
        cases taken
        exact .completes n.toNat here (Nat.not_lt.mp all)
    · split at taken
      · rename_i on
        cases taken
        exact .fails here on
      · rename_i off
        cases taken
        exact .leaves here (by simpa using off)

structure Flow (drain : Bool) (s : Reader) (log : Log Reader Io) : Prop where
  even : s.drop = false → s.pc = .reading ∨ s.pc = .ended → sent log = taken log
  rest : s.pc = .sending → s.drop = false ∧ ∃ before, taken log = before ++ s.buf ∧
    sent log = before ++ s.buf.take s.off ∧ s.off < s.buf.length
  cut : s.drop = true ∨ s.pc = .left → sent log <+: taken log
  wanted : s.drop = true → drain = true
  stays : drain = true → s.pc ≠ .left
  once : shutdowns log = if s.pc.over then 1 else 0

theorem takenNext : taken (log ++ es.map (s,·)) = taken log ++ es.flatMap Io.chunk := by
  simp [taken,List.flatMap_map]

theorem sentNext : sent (log ++ es.map (s,·)) = sent log ++ es.flatMap Io.bytes := by
  simp [sent,List.flatMap_map]

theorem shutdownsNext : shutdowns (log ++ es.map (s,·)) = shutdowns log + es.countP (· = .shutdown) := by
  simp [shutdowns,List.countP_map,Function.comp_def]

theorem movesFlow (moves : Moves drain s s' es) (inv : Flow drain s log) : Flow drain s' (log ++ es.map (s,·)) := by
  have running : ∀ {pc}, s.pc = pc → pc.over = false → shutdowns log = 0 := by
    rintro pc rfl runs
    rw [inv.once,runs]
    rfl
  cases moves with
  | reads chunk here some' keeps =>
    refine ⟨nofun,fun _ => ⟨rfl,taken log,?_,?_,List.length_pos_of_ne_nil some'⟩,nofun,nofun,nofun,?_⟩
    · rw [takenNext]
      simp [Io.chunk]
    · rw [sentNext,inv.even keeps (.inl here)]
      simp [Io.bytes]
    · rw [shutdownsNext,running here rfl]
      rfl
  | drops chunk here dropped =>
    refine ⟨nofun,nofun,fun _ => ?_,fun _ => inv.wanted dropped,nofun,?_⟩
    · have front := inv.cut (.inl dropped)
      rw [sentNext,takenNext]
      simpa [Io.bytes,Io.chunk] using front.trans (List.prefix_append _ chunk)
    · rw [shutdownsNext,running here rfl]
      rfl
  | ends here =>
    refine ⟨fun keeps _ => ?_,nofun,fun cut => ?_,inv.wanted,nofun,?_⟩
    · rw [sentNext,takenNext,inv.even keeps (.inl here)]
      rfl
    · have dropped := cut.resolve_right (by simp)
      rw [sentNext,takenNext]
      simpa [Io.bytes,Io.chunk] using inv.cut (.inl dropped)
    · rw [shutdownsNext,running here rfl]
      rfl
  | sends n here positive short =>
    obtain ⟨keeps,before,whole,part,_⟩ := inv.rest here
    refine ⟨nofun,fun _ => ⟨keeps,before,?_,?_,short⟩,?_,inv.wanted,nofun,?_⟩
    · rw [takenNext,whole]
      simp [Io.chunk]
    · rw [sentNext,part,List.flatMap_singleton,Io.bytes,List.append_assoc,← List.take_add]
    · simp [keeps]
    · rw [shutdownsNext,running here rfl]
      rfl
  | completes n here all =>
    obtain ⟨keeps,before,whole,part,_⟩ := inv.rest here
    refine ⟨fun _ _ => ?_,nofun,?_,inv.wanted,nofun,?_⟩
    · have rest : s.buf.take s.off ++ (s.buf.drop s.off).take n = s.buf := by
        rw [← List.take_add,List.take_of_length_le all]
      rw [sentNext,takenNext,part,whole]
      simpa [Io.bytes,Io.chunk] using rest
    · simp [keeps]
    · rw [shutdownsNext,running here rfl]
      rfl
  | fails here on =>
    obtain ⟨keeps,before,whole,part,_⟩ := inv.rest here
    refine ⟨nofun,nofun,fun _ => ?_,fun _ => on,nofun,?_⟩
    · rw [List.map_nil,List.append_nil,whole,part,List.prefix_append_right_inj]
      exact List.take_prefix _ _
    · rw [List.map_nil,List.append_nil,running here rfl]
      rfl
  | leaves here off =>
    obtain ⟨keeps,before,whole,part,_⟩ := inv.rest here
    refine ⟨nofun,nofun,fun _ => ?_,inv.wanted,?_,?_⟩
    · rw [sentNext,takenNext,part,whole]
      simpa [Io.bytes,Io.chunk] using List.take_prefix s.off s.buf
    · simp [off]
    · rw [shutdownsNext,running here rfl]
      rfl

theorem runFlow (run : Run (reader drain) (fun _ _ => True) s log) : Flow drain s log := by
  refine runInvariant (P := fun s log => Flow drain s log) ?_ (fun _ _ taken inv => movesFlow (stepMoves taken) inv) run
  exact ⟨fun _ _ => rfl,nofun,nofun,nofun,nofun,rfl⟩

theorem sentKept (run : Run (reader drain) (fun _ _ => True) s log) {s₁ : Reader} {bytes : Bytes}
    (mem : (s₁,.sent bytes) ∈ log) : s₁.drop = false := by
  obtain ⟨pre,a,s₂,es,earlier,_,taken,inside,_⟩ := runStep run mem
  have inv := runFlow earlier
  cases stepMoves taken with
  | sends n here positive short => exact (inv.rest here).1
  | completes n here all => exact (inv.rest here).1
  | _ => simp at inside

end runs

section progress
variable {drain : Bool} {s s' : Reader} {log : Log Reader Io} {es : List Io}

def Outcome.sends : Outcome → Bool
  | .send _ => true
  | _ => false

def remaining (s : Reader) : Nat := if s.pc = .sending then s.buf.length - s.off else 0

def Within (s : Reader) : Prop := s.pc = .sending → s.off < s.buf.length

theorem sendShrinks {a : Outcome} (within : Within s) (sends : a.sends = true) (taken : step drain s a = some (s',es)) :
    Within s' ∧ remaining s' < remaining s := by
  have here : s.pc = .sending := by
    cases a with
    | read ok chunk => contradiction
    | send n => cases here : s.pc <;> simp [step,here] at taken ⊢
  have room := within here
  have before : remaining s = s.buf.length - s.off := if_pos here
  cases stepMoves taken with
  | sends n _ positive short =>
    have after : remaining ⟨.sending,s.buf,s.off + n,s.drop⟩ = s.buf.length - (s.off + n) := rfl
    exact ⟨fun _ => short,by omega⟩
  | completes n _ all =>
    have after : remaining ⟨.reading,s.buf,s.off + n,s.drop⟩ = 0 := rfl
    exact ⟨nofun,by omega⟩
  | fails _ on =>
    have after : remaining { s with pc := .reading, drop := true } = 0 := rfl
    exact ⟨nofun,by omega⟩
  | leaves _ off =>
    have after : remaining { s with pc := .left } = 0 := rfl
    exact ⟨nofun,by omega⟩
  | _ => simp_all

theorem stuckSends (stuck : Stuck (reader drain) (fun _ a => a.sends = true) s) : s.pc ≠ .sending := by
  intro here
  have failing : step drain s (.send 0) ≠ none := by
    simp only [step,here]
    split
    · omega
    · split
      · omega
      · split <;> simp
  obtain ⟨⟨s',es⟩,taken⟩ := Option.ne_none_iff_exists'.mp failing
  exact stuck (.send 0) s' es rfl taken

structure Drains (drain : Bool) (s : Reader) (log : Log Reader Io) : Prop where
  front : sent log <+: taken log
  whole : s.drop = false → s.pc = .reading ∨ s.pc = .ended → sent log = taken log
  silent : ∀ s₁ bytes, (s₁,.sent bytes) ∈ log → s₁.drop = false
  goesOn : drain = true → s.pc ≠ .left
  once : shutdowns log = if s.pc.over then 1 else 0
  bounded : ∀ n s', Path (reader drain) (fun _ a => a.sends = true) s n s' → n ≤ remaining s
  reads : ∃ n s', Path (reader drain) (fun _ a => a.sends = true) s n s' ∧ s'.pc ≠ .sending

theorem readerDrains (drain : Bool) (s : Reader) (log : Log Reader Io)
    (run : Run (reader drain) (fun _ _ => True) s log) : Drains drain s log := by
  have inv := runFlow run
  have within : Within s := fun here => by
    obtain ⟨_,_,_,_,room⟩ := inv.rest here
    exact room
  have kept : ∀ {s a s' es}, Within s → Outcome.sends a = true → (reader drain).step s a = some (s',es) →
      Within s' ∧ remaining s' < remaining s := fun within sends taken => sendShrinks within sends taken
  refine ⟨?_,inv.even,fun s₁ bytes mem => sentKept run mem,inv.stays,inv.once,fun n s' path => ?_,?_⟩
  · cases drop : s.drop with
    | true => exact inv.cut (.inl drop)
    | false =>
      cases here : s.pc with
      | reading => rw [inv.even drop (.inl here)]
      | ended => rw [inv.even drop (.inr here)]
      | left => exact inv.cut (.inr here)
      | sending =>
        obtain ⟨_,before,whole,part,_⟩ := inv.rest here
        rw [whole,part,List.prefix_append_right_inj]
        exact List.take_prefix _ _
  · have bound := (pathBounded kept within path).2
    omega
  · obtain ⟨n,s',path,stuck⟩ := pathStuck kept within
    exact ⟨n,s',path,stuckSends stuck⟩

theorem readerDrainsDropped : ∃ s log, Run (reader true) (fun _ _ => True) s log ∧
    (s.pc = .ended ∧ taken log = [1,2,3,4] ∧ sent log = [1,2]) ∧ Drains true s log := by
  obtain ⟨s,log,run,shows⟩ := replayReaches (reader true) (fun _ _ => True)
    [.read true [1,2,3],.send 1,.send 1,.send (-1),.read true [4],.read false []]
    (fun out => decide (out.1.pc = .ended ∧ taken out.2 = [1,2,3,4] ∧ sent out.2 = [1,2])) (by decide +kernel)
  exact ⟨s,log,run,of_decide_eq_true shows,readerDrains true s log run⟩

end progress

end HevFsh.BridgeReader
