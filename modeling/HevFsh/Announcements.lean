import HevFsh.ClientTask
import HevFsh.ForwardDescriptor
import HevFsh.Framing

/-! What a forwarder makes of the server's messages: hev_fsh_client_forward_dispatch calls
hev_fsh_client_forward_accept for every CONNECT, once its token is there. -/
namespace HevFsh.Announcements
open Protocol Transitions ClientForward ForwardTask

inductive Event where
  | task (e : ForwardTask.Event)
  | received (k : Nat) (b : UInt8)
  | accept (k : Nat) (kind : ClientTask.Kind) (t : Token)

def forwardAccept : Config.Mode → ClientTask.Kind
  | .forwarderPort => .portAccept
  | .forwarderSock => .sockAccept
  | _ => .termAccept

def announced : Reply → Option Token
  | .connect t => some t
  | _ => none

def dispatches (mode : Config.Mode) (k : Nat) (r : Reader) (b : UInt8) : List Event :=
  (((feed r b).heard.drop r.heard.length).filterMap announced).map (.accept k (forwardAccept mode))

def hears (mode : Config.Mode) (σ : Process) : Action → Option (List Event)
  | .receive b => match σ.main with
      | .reading r => (σ.fds σ.fd).map (fun k => .received k b :: dispatches mode k r b)
      | _ => some []
  | _ => some []

def step (cfg : ForwardTask.Config) (mode : Config.Mode) (σ : Process) (a : Action) : Option (Process × List Event) :=
  (ForwardTask.step cfg σ a).bind (fun r => (hears mode σ a).map (fun es => (r.1,es ++ r.2.map .task)))

def machine (cfg : ForwardTask.Config) (mode : Config.Mode) : Machine Process Action Event :=
  ⟨ForwardTask.init,step cfg mode⟩

def Event.byteOf (k : Nat) : Event → Option UInt8
  | .received k' b => if k' = k then some b else none
  | _ => none

def Event.acceptOf (k : Nat) : Event → Option (ClientTask.Kind × Token)
  | .accept k' kind t => if k' = k then some (kind,t) else none
  | _ => none

def Event.taskOf : Event → Option ForwardTask.Event
  | .task e => some e
  | _ => none

def bytes (k : Nat) (log : Log Process Event) : Bytes := log.filterMap (fun e => e.2.byteOf k)

def accepted (k : Nat) (log : Log Process Event) : List (ClientTask.Kind × Token) :=
  log.filterMap (fun e => e.2.acceptOf k)

section readers
variable {r : Reader} {b : UInt8} {a c : Bytes}

theorem receivedHeard {reading : Reading} {heard : List Reply} : heard <+: (received reading c heard).heard := by
  unfold ClientForward.received
  split
  · split <;> exact List.prefix_rfl
  · split
    · exact List.prefix_append _ _
    · exact List.prefix_rfl
  · split
    · exact List.prefix_rfl
    · exact List.prefix_append _ _
    · exact List.prefix_rfl
  · split
    · exact List.prefix_append _ _
    · exact List.prefix_rfl
  · exact List.prefix_rfl

theorem feedHeard : r.heard <+: (feed r b).heard := by
  unfold feed
  split
  · exact List.prefix_rfl
  · split
    · exact receivedHeard
    · exact List.prefix_rfl

theorem feedStopped (stopped : r.reading = .stopped) : (feed r b).reading = .stopped := by
  simp [feed,stopped]

theorem readHeard : r.heard <+: (read r c).heard := by
  induction c generalizing r with
  | nil => exact List.prefix_rfl
  | cons b c ih => exact feedHeard.trans ih

theorem readStopped (stopped : r.reading = .stopped) : (read r c).reading = .stopped := by
  induction c generalizing r with
  | nil => exact stopped
  | cons b c ih => exact ih (feedStopped stopped)

theorem readInitial (front : a <+: c) : (read .start a).heard <+: (read .start c).heard ∧
    ((read .start c).reading ≠ .stopped → (read .start a).reading ≠ .stopped) := by
  obtain ⟨more,rfl⟩ := front
  rw [readAppend]
  exact ⟨readHeard,fun goes stopped => goes (readStopped stopped)⟩

end readers

section hearing
variable {cfg : ForwardTask.Config} {mode : Config.Mode} {σ σ' : Process} {log : Log Process Event} {a : Action}
  {es : List Event} {k : Nat}

def Before (σ : Process) (k : Nat) : Prop :=
  (∃ fd, σ.main = .connecting fd ∧ σ.fds fd = some k) ∨
    (σ.main.connected = true ∧ (∀ r, σ.main ≠ .reading r) ∧ σ.fds σ.fd = some k)

structure Hearing (mode : Config.Mode) (σ : Process) (log : Log Process Event) : Prop where
  silent : ∀ k, σ.count ≤ k ∨ Before σ k → bytes k log = []
  reads : ∀ r k, σ.main = .reading r → σ.fds σ.fd = some k → r = read .start (bytes k log)
  accepts : ∀ k, accepted k log =
    ((read .start (bytes k log)).heard.filterMap announced).map (fun t => (forwardAccept mode,t))

inductive Steps (cfg : ForwardTask.Config) (mode : Config.Mode) (σ : Process) :
    Action → Process → List Event → Prop where
  | byte {b : UInt8} {r : Reader} {k : Nat} {σ' : Process} {es : List ForwardTask.Event}
      (main : σ.main = .reading r) (on : σ.fds σ.fd = some k) (move : Moves cfg σ (.receive b) σ' es) :
      Steps cfg mode σ (.receive b) σ' (.received k b :: dispatches mode k r b ++ es.map .task)
  | other {a : Action} {σ' : Process} {es : List ForwardTask.Event} (apart : ∀ b, a ≠ .receive b)
      (move : Moves cfg σ a σ' es) : Steps cfg mode σ a σ' (es.map .task)

theorem stepSteps (taken : step cfg mode σ a = some (σ',es)) : Steps cfg mode σ a σ' es := by
  obtain ⟨⟨σ₁,es₁⟩,inner,rest⟩ := Option.bind_eq_some_iff.mp taken
  obtain ⟨heard,is,whole⟩ := Option.map_eq_some_iff.mp rest
  cases whole
  have move := stepMoves inner
  cases a with
  | receive b =>
    simp only [ForwardTask.step,receive] at inner
    split at inner <;> try contradiction
    rename_i r main
    simp only [hears,main] at is
    obtain ⟨k,on,is⟩ := Option.map_eq_some_iff.mp is
    cases is
    exact .byte main on move
  | _ =>
    cases is
    exact .other (by simp) move

theorem bytesNext : bytes k (log ++ es.map (σ,·)) = bytes k log ++ es.filterMap (Event.byteOf k) := by
  simp [bytes,List.filterMap_map]

theorem acceptedNext : accepted k (log ++ es.map (σ,·)) = accepted k log ++ es.filterMap (Event.acceptOf k) := by
  simp [accepted,List.filterMap_map]

theorem taskSilent {es : List ForwardTask.Event} : (es.map Event.task).filterMap (Event.byteOf k) = [] ∧
    (es.map Event.task).filterMap (Event.acceptOf k) = [] := by
  simp [List.filterMap_map,Function.comp_def,Event.byteOf,Event.acceptOf]

theorem dispatchesSilent {r : Reader} {b : UInt8} {j : Nat} :
    (dispatches mode j r b).filterMap (Event.byteOf k) = [] := by
  simp [dispatches,List.filterMap_map,Function.comp_def,Event.byteOf]

theorem dispatchesTask {r : Reader} {b : UInt8} {j : Nat} : (dispatches mode j r b).filterMap Event.taskOf = [] := by
  simp [dispatches,List.filterMap_map,Function.comp_def,Event.taskOf]

theorem taskOfTask {es : List ForwardTask.Event} : (es.map Event.task).filterMap Event.taskOf = es := by
  simp [List.filterMap_map,Function.comp_def,Event.taskOf]

theorem taskOfHears {es : List Event} (is : hears mode σ a = some es) : es.filterMap Event.taskOf = [] := by
  unfold hears at is
  split at is
  · split at is
    · obtain ⟨k,_,rfl⟩ := Option.map_eq_some_iff.mp is
      rw [List.filterMap_cons,dispatchesTask]
      rfl
    · cases is; rfl
  · cases is; rfl

theorem dispatchesAccepts {r : Reader} {b : UInt8} {j : Nat} : (dispatches mode j r b).filterMap (Event.acceptOf k) =
    if j = k then (((feed r b).heard.drop r.heard.length).filterMap announced).map (forwardAccept mode,·) else [] := by
  by_cases same : j = k
  · simp [dispatches,List.filterMap_map,Function.comp_def,Event.acceptOf,same]
  · simp [dispatches,List.filterMap_map,Function.comp_def,Event.acceptOf,same]

theorem beforeMoves {es : List ForwardTask.Event} (apart : ∀ b, a ≠ .receive b) (move : Moves cfg σ a σ' es)
    (before : Before σ' k) : σ.count ≤ k ∨ Before σ k := by
  have stays : σ'.main = σ.main → σ'.fd = σ.fd → (∀ fd, σ'.fds fd = some k →
      σ.fds fd = some k) → Before σ k := by
    intro main fd fds
    rcases before with ⟨g,at',on⟩ | ⟨connected,none',on⟩
    · exact .inl ⟨g,main ▸ at',fds g on⟩
    · exact .inr ⟨main ▸ connected,main ▸ none',fd ▸ fds _ on⟩
  cases move with
  | restarts way => simp [Before,restart,Main.connected] at before
  | @socket fd main valid free =>
    simp only [Before,Main.connecting.injEq,Function.update_self,Main.connected,Option.some.injEq,
      Bool.false_eq_true,false_and,or_false,exists_eq_left'] at before
    exact .inl (Nat.le_of_eq before)
  | connects main done =>
    simp only [Before,reduceCtorEq,false_and,exists_false,false_or] at before
    exact .inr (.inl ⟨_,main,before.2.2⟩)
  | locks main free | sends main positive room valid | headerWritten main done configured =>
    simp only [Before,reduceCtorEq,false_and,exists_false,false_or] at before
    exact .inr (.inr ⟨by rw [main]; rfl,by simp [main],before.2.2⟩)
  | loginWritten main done last => simp [Before] at before
  | reads main => exact absurd rfl (apart _)
  | @opens fd valid free =>
    by_cases new : σ.count ≤ k
    · exact .inl new
    · refine .inr (stays rfl rfl (fun g on => ?_))
      by_cases same : g = fd
      · simp only [same,Function.update_self,Option.some.injEq] at on
        omega
      · simpa [Function.update_of_ne same] using on
  | closes held => exact .inr (stays rfl rfl (fun g on => (closeFdSome on).2))
  | keepLocks kalive free | keepSends kalive valid | keepReturns kalive | wakes kalive =>
    exact .inr (stays rfl rfl (fun _ on => on))

theorem readingMoves {old : Log Process ForwardTask.Event} {es : List ForwardTask.Event} {r : Reader}
    (keeps : Keeps σ old) (apart : ∀ b, a ≠ .receive b) (move : Moves cfg σ a σ' es)
    (main' : σ'.main = .reading r)
    (on' : σ'.fds σ'.fd = some k) :
    (σ.main = .reading r ∧ σ.fds σ.fd = some k) ∨ (r = .start ∧ Before σ k) := by
  cases move with
  | loginWritten main done last =>
    cases main'
    exact .inr ⟨rfl,.inr ⟨by rw [main]; rfl,by simp [main],on'⟩⟩
  | reads main => exact absurd rfl (apart _)
  | @opens fd valid free =>
    have main : σ.main = .reading r := main'
    obtain ⟨c,mine,_⟩ := keeps.own (by rw [main]; rfl)
    have other : σ.fd ≠ fd := by
      rintro same
      rw [same,free] at mine
      contradiction
    exact .inl ⟨main,by simpa [Function.update_of_ne other] using on'⟩
  | closes held => exact .inl ⟨main',(closeFdSome on').2⟩
  | keepLocks kalive free | keepSends kalive valid | keepReturns kalive | wakes kalive => exact .inl ⟨main',on'⟩
  | restarts way => simp [restart] at main'
  | _ => simp at main'

theorem countMoves {es : List ForwardTask.Event} (move : Moves cfg σ a σ' es) : σ.count ≤ σ'.count := by
  cases move with
  | restarts way => cases way <;> exact Nat.le_refl _
  | socket main valid free => exact Nat.le_succ _
  | opens valid free => exact Nat.le_succ _
  | _ => exact Nat.le_refl _

theorem hearingOther {old : Log Process ForwardTask.Event} {es : List ForwardTask.Event} (keeps : Keeps σ old)
    (inv : Hearing mode σ log) (apart : ∀ b, a ≠ .receive b) (move : Moves cfg σ a σ' es) :
    Hearing mode σ' (log ++ (es.map Event.task).map (σ,·)) := by
  have bytesSame : ∀ k, bytes k (log ++ (es.map Event.task).map (σ,·)) = bytes k log := by
    intro k
    rw [bytesNext,taskSilent.1,List.append_nil]
  refine ⟨fun k early => ?_,fun r k main on => ?_,fun k => ?_⟩
  · rw [bytesSame]
    rcases early with new | before
    · exact inv.silent k (.inl (Nat.le_trans (countMoves move) new))
    · exact inv.silent k (beforeMoves apart move before)
  · rw [bytesSame]
    rcases readingMoves keeps apart move main on with ⟨main,on⟩ | ⟨rfl,before⟩
    · exact inv.reads r k main on
    · rw [inv.silent k (.inr before)]
      rfl
  · rw [acceptedNext,taskSilent.2,List.append_nil,bytesSame]
    exact inv.accepts k

theorem hearingByte {es : List ForwardTask.Event} {r : Reader} {b : UInt8} {c : Nat} (table : Table σ)
    (inv : Hearing mode σ log) (main : σ.main = .reading r) (on : σ.fds σ.fd = some c)
    (move : Moves cfg σ (.receive b) σ' es) :
    Hearing mode σ' (log ++ (Event.received c b :: dispatches mode c r b ++ es.map Event.task).map (σ,·)) := by
  have bytesMore : ∀ k, bytes k (log ++ (Event.received c b :: dispatches mode c r b ++ es.map Event.task).map
      (σ,·)) =
      bytes k log ++ if c = k then [b] else [] := by
    intro k
    rw [bytesNext,List.filterMap_append,taskSilent.1,List.filterMap_cons,dispatchesSilent]
    split <;> simp_all [Event.byteOf]
  have feeds : read .start (bytes c log ++ [b]) = feed r b := by
    rw [readAppend,← inv.reads r c main on]
    rfl
  refine ⟨fun k early => ?_,fun r' k main' on' => ?_,fun k => ?_⟩
  · have old := (table.valid σ.fd c on).2
    rw [bytesMore]
    rcases early with new | before
    · have later := Nat.le_trans (countMoves move) new
      rw [if_neg (by omega),inv.silent k (.inl later)]
      rfl
    · cases move with
      | restarts way => simp [Before,restart,Main.connected] at before
      | reads _ => simp [Before] at before
  · cases move with
    | restarts way => simp [restart] at main'
    | reads at' =>
      rw [main] at at'
      cases at'
      cases main'
      have same : k = c := by
        have here : σ.fds σ.fd = some k := on'
        rw [on] at here
        exact (Option.some.inj here).symm
      rw [same,bytesMore,if_pos rfl,feeds]
  · rw [bytesMore,acceptedNext,List.filterMap_append,taskSilent.2,List.append_nil,List.filterMap_cons,
      dispatchesAccepts,inv.accepts k]
    by_cases mine : c = k
    · subst mine
      obtain ⟨more,whole⟩ := feedHeard (r := r) (b := b)
      rw [if_pos rfl,if_pos rfl,feeds,← inv.reads r c main on,← whole]
      simp [Event.acceptOf]
    · simp [mine,Event.acceptOf]

theorem hearingNext {old : Log Process ForwardTask.Event} (table : Table σ) (keeps : Keeps σ old)
    (inv : Hearing mode σ log) (taken : Steps cfg mode σ a σ' es) : Hearing mode σ' (log ++ es.map (σ,·)) := by
  cases taken with
  | byte main on move => exact hearingByte table inv main on move
  | other apart move => exact hearingOther keeps inv apart move

theorem runTasks {ok : Process → Action → Prop} (run : Run (machine cfg mode) ok σ log) :
    Run (ForwardTask.machine cfg) ok σ (log.filterMap (fun e => e.2.taskOf.map (e.1,·))) := by
  refine runView (n := ForwardTask.machine cfg) id Event.taskOf rfl (fun {s a s' es} allowed
      taken => .inr ⟨a,allowed,?_⟩) run
  obtain ⟨⟨s₁,es₁⟩,inner,rest⟩ := Option.bind_eq_some_iff.mp taken
  obtain ⟨heard,is,whole⟩ := Option.map_eq_some_iff.mp rest
  cases whole
  rw [List.filterMap_append,taskOfHears is,taskOfTask]
  exact inner

theorem hearingRun (run : Run (machine cfg mode) Settled σ log) : Hearing mode σ log := by
  refine runInvariant (P := fun σ log => Hearing mode σ log) ?_ ?_ run
  · exact ⟨fun _ _ => rfl,fun r k main => by simp [machine,init] at main,fun k => rfl⟩
  · intro σ log a σ' es run _ taken inv
    exact hearingNext (tableRun (runTasks run)) (keepsRun (runTasks run)) inv (stepSteps taken)

end hearing

structure Started (mode : Config.Mode) (served : Log SessionTask.Server SessionTask.Event) (f : SessionManager.Sid)
    (log : Log Process Event) (k : Nat) : Prop where
  goesOn : (read .start (bytes k log)).reading ≠ .stopped
  acceptors : ∃ rs r part, SessionTask.Delivers served f rs r part ∧
    accepted k log <+: (rs.filterMap announced).map (forwardAccept mode,·) ∧
    (bytes k log = SessionTask.stream f served →
        accepted k log = (rs.filterMap announced).map (forwardAccept mode,·))
  connectors : ∀ kind t, (kind,t) ∈ accepted k log → ∃ i early σ₀ p later,
    SessionTask.Announcing served i f t early σ₀ p later ∧ (SessionTask.LoggedIn early f 3 →
      ∃ rest, later = (σ₀,.generated i t) :: rest ∧ (SessionTask.Unseen early t → SessionTask.Unused rest t →
        ∀ j, j ≠ i → SessionTask.Unpaired served j t))

section served
variable {cfg : SessionTask.Config} {ν : SessionTask.Server} {served : Log SessionTask.Server SessionTask.Event}
  {f : SessionManager.Sid} {t : Token}

/- A CONNECT whose writer got the lock is that of a connector which presented the
forwarder's token and was given the one it announces. -/
theorem lockedAnnouncing (run : Run (SessionTask.machine cfg) SessionTask.Undivided ν served) {σ₁ i}
    (mem : (σ₁,.locked i f (Reply.connect t).bytes) ∈ served) :
    ∃ early σ₀ p later, SessionTask.Announcing served i f t early σ₀ p later := by
  generalize is : (Reply.connect t).bytes = sent at mem
  obtain ⟨pre,a,σ₂,es,earlier,_,taken,inside,⟨rest,whole⟩⟩ := runStep run mem
  cases SessionTask.movesLogs (SessionTask.stepMoves taken) inside with
  | plain plain => contradiction
  | @locked i w pc =>
    have writes : (σ₁.pc i).write = some w := by rw [pc]; rfl
    have shape := ((SessionTask.writingRun earlier i).shape w writes).2
    unfold SessionTask.WriteShape at shape
    cases after : w.after with
    | connect mt =>
      simp only [after] at shape
      rw [shape.2] at is
      have same : t = mt := by
        obtain ⟨tb,_⟩ := t
        obtain ⟨mb,_⟩ := mt
        simpa [Reply.bytes,message] using is
      subst same
      obtain ⟨early,σ₀,p,later,known,_⟩ := (SessionTask.announcesRun earlier).writing i w t writes after
      refine ⟨early,σ₀,p,later ++ (es.map (σ₁,·) ++ rest),?_⟩
      rw [← whole,List.append_assoc]
      exact SessionTask.announcingMono _ known
    | login ver => simp [after,Reply.bytes,← is,SessionTask.loginReply,message,Command.code] at shape
    | keepAlive => simp [after,Reply.bytes,← is,message,Command.code] at shape

theorem announcingAlone (run : Run (SessionTask.machine cfg) SessionTask.Undivided ν served) {i early σ₀ p later}
    (known : SessionTask.Announcing served i f t early σ₀ p later) (version : SessionTask.LoggedIn early f 3) :
    ∃ rest, later = (σ₀,.generated i t) :: rest ∧ (SessionTask.Unseen early t → SessionTask.Unused rest t →
      ∀ j, j ≠ i → SessionTask.Unpaired served j t) := by
  have temp := known.version 3 version
  obtain ⟨rest,given⟩ := known.given
  simp only [SessionTask.generatedEvents,temp,decide_true,if_true,List.map_cons,List.map_nil,List.cons_append,
    List.nil_append] at given
  refine ⟨_,given,fun unseen unused j other => ?_⟩
  have whole := known.split
  rw [given,List.append_cons] at whole
  refine SessionTask.pairedOnly run whole known.reads (fun e mem => ?_) unused other
  rcases List.mem_append.mp mem with old | new
  · exact unseen e old
  · cases List.mem_singleton.mp new
    rfl

theorem lockOrderMem {data : Bytes} (mem : data ∈ SessionTask.lockOrder f served) :
    ∃ σ₁ i, (σ₁,.locked i f data) ∈ served := by
  obtain ⟨⟨σ₁,e⟩,inside,is⟩ := List.mem_filterMap.mp mem
  cases e <;> simp only [SessionTask.Event.lockedFor,reduceCtorEq] at is
  rename_i i s bytes
  split at is
  · rename_i same
    cases is
    exact ⟨σ₁,i,same ▸ inside⟩
  · contradiction

end served

theorem announcedSome {r : Reply} {t : Token} (is : announced r = some t) : r = .connect t := by
  cases r <;> simp_all [announced]

theorem acceptorsAnnounced (cfg : SessionTask.Config) (ν : SessionTask.Server)
    (served : Log SessionTask.Server SessionTask.Event) (f : SessionManager.Sid)
    (serves : Run (SessionTask.machine cfg) SessionTask.Unbroken ν served) (talk : SessionTask.Talk f served)
    (own : ForwardTask.Config) (mode : Config.Mode) (σ : Process) (log : Log Process Event) (k : Nat)
    (run : Run (machine own mode) Settled σ log) (arrived : bytes k log <+: SessionTask.stream f served) :
    Started mode served f log k := by
  obtain ⟨rs,r,part,delivers⟩ := (SessionTask.framesKept cfg ν served serves f talk).delivers
  obtain ⟨goes,whole⟩ := delivers.decoded
  obtain ⟨heard,running⟩ := readInitial arrived
  rw [whole] at heard
  have accepts := (hearingRun run).accepts k
  refine ⟨running goes,⟨rs,r,part,delivers,?_,fun all => ?_⟩,fun kind t mem => ?_⟩
  · rw [accepts]
    exact (heard.filterMap _).map _
  · rw [accepts,all,whole]
  · rw [accepts] at mem
    obtain ⟨t',inside,is⟩ := List.mem_map.mp mem
    cases is
    obtain ⟨x,hears,is⟩ := List.mem_filterMap.mp inside
    have mine := announcedSome is
    subst mine
    have listed : (Reply.connect t).bytes ∈ SessionTask.lockOrder f served := by
      refine delivers.order.subset (List.mem_map_of_mem ?_)
      split
      · exact heard.subset hears
      · exact List.mem_append_left _ (heard.subset hears)
    obtain ⟨σ₁,i,locked⟩ := lockOrderMem listed
    have undivided := runMono (fun _ _ unbroken => unbroken.1) serves
    obtain ⟨early,σ₀,p,later,known⟩ := lockedAnnouncing undivided locked
    exact ⟨i,early,σ₀,p,later,known,announcingAlone undivided known⟩

def announcement : Bytes := (Reply.token (SessionTask.tokenOf 7)).bytes ++ (Reply.connect (tokenGenerate .zero)).bytes

theorem acceptorsAnnouncedPort : ∃ ν served σ log,
    Run (SessionTask.machine (SessionTask.plainConfig 120 none)) SessionTask.Unbroken ν served ∧
    Run (machine ⟨some (some (SessionTask.tokenOf 7))⟩ .forwarderPort) Settled σ log ∧
    accepted 0 log = [(.portAccept,tokenGenerate .zero)] ∧ Started .forwarderPort served 0 log 0 := by
  obtain ⟨ν,served,serves,shows⟩ := replayReaches (SessionTask.machine (SessionTask.plainConfig 120 none))
    SessionTask.Unbroken (SessionTask.loginActions 0 5 3 (SessionTask.tokenOf 7) ++
      SessionTask.connectActions 1 6 (SessionTask.tokenOf 7) .zero ++
      ([.lock 1,.send 1 18,.sendReturn 1 18] : List SessionTask.Action))
    (fun r => SessionTask.Talk 0 r.2 ∧ SessionTask.stream 0 r.2 = announcement) (by decide +kernel)
  obtain ⟨talk,carried⟩ := of_decide_eq_true shows
  obtain ⟨σ,log,run,shows⟩ := replayReaches (machine ⟨some (some (SessionTask.tokenOf 7))⟩
      .forwarderPort) Settled
    (connectTo 5 ++ writePiece 2 ++ writePiece 16 ++ announcement.map Action.receive)
    (fun r => bytes 0 r.2 = announcement ∧ accepted 0 r.2 = [(.portAccept,tokenGenerate .zero)]) (by decide +kernel)
  obtain ⟨arrived,accepts⟩ := of_decide_eq_true shows
  have same : bytes 0 log = SessionTask.stream 0 served := arrived.trans carried.symm
  exact ⟨ν,served,σ,log,serves,run,accepts,acceptorsAnnounced _ ν served 0 serves talk
      _ .forwarderPort σ log 0 run
    (same ▸ List.prefix_rfl)⟩

end HevFsh.Announcements
