import HevFsh.Pairing
import HevFsh.Sockets

/-! What the server reads from a connection and puts on it over a whole run: the
client's requests, the server's messages, and what a relay passes on. -/
namespace HevFsh.SessionTask
open SearchTree Protocol SessionManager Transitions

def Event.taken (c : Sid) : Event → Bytes
  | .header i ver cmd => if i = c then [ver,cmd] else []
  | .token i _ t => if i = c then t.bytes else []
  | _ => []

def Event.spoken (c : Sid) : Event → Bytes
  | .sent _ conn bytes => if conn = c then bytes else []
  | _ => []

def Event.relayedTo (c : Sid) : Event → Bytes
  | .relayed _ conn data => if conn = c then data else []
  | _ => []

/- What the relay of `s` passes on: to the descriptor it was handed, or back to its own. -/
def Event.passed (s : Sid) (toRemote : Bool) : Event → Bytes
  | .relayed i conn data => if i = s ∧ decide (conn ≠ s) = toRemote then data else []
  | _ => []

def Event.onto (c : Sid) (e : Event) : Bytes := e.spoken c ++ e.relayedTo c

def Event.mute : Event → Bool
  | .sent _ _ _ | .relayed _ _ _ => false
  | _ => true

def handled (c : Sid) (log : Log Server Event) : Bytes := log.flatMap (fun e => e.2.taken c)

def spoken (c : Sid) (log : Log Server Event) : Bytes := log.flatMap (fun e => e.2.spoken c)

def relayedTo (c : Sid) (log : Log Server Event) : Bytes := log.flatMap (fun e => e.2.relayedTo c)

def passed (s : Sid) (toRemote : Bool) (log : Log Server Event) : Bytes :=
  log.flatMap (fun e => e.2.passed s toRemote)

def written (c : Sid) (log : Log Server Event) : Bytes := log.flatMap (fun e => e.2.onto c)

def Action.taken (c : Sid) : Action → Bytes
  | .recvMessage i (some (ver,cmd)) _ => if i = c then [ver,cmd] else []
  | .recvToken i (some mt) _ => if i = c then mt.bytes else []
  | _ => []

section projections
variable {β : Type} {f : Event → List β} {σ : Server} {log : Log Server Event} {es : List Event}

theorem logNext : (log ++ es.map (σ,·)).flatMap (fun e => f e.2) =
    log.flatMap (fun e => f e.2) ++ es.flatMap f := by
  simp [List.flatMap_append,List.flatMap_map]

theorem plainNothing (none : ∀ e : Event, e.plain = true → f e = []) {l : List Event}
    (plain : ∀ e ∈ l, e.plain = true) : l.flatMap f = [] :=
  List.flatMap_eq_nil_iff.mpr (fun e mem => none e (plain e mem))

end projections

section steps
variable {cfg : Config} {σ σ' : Server} {log : Log Server Event} {i c s : Sid} {a : Action}
  {es : List Event} {toRemote : Bool}

theorem handledNext : handled c (log ++ es.map (σ,·)) = handled c log ++ es.flatMap (Event.taken c) :=
  logNext

theorem spokenNext : spoken c (log ++ es.map (σ,·)) = spoken c log ++ es.flatMap (Event.spoken c) :=
  logNext

theorem relayedToNext :
    relayedTo c (log ++ es.map (σ,·)) = relayedTo c log ++ es.flatMap (Event.relayedTo c) := logNext

theorem passedNext : passed s toRemote (log ++ es.map (σ,·)) =
    passed s toRemote log ++ es.flatMap (Event.passed s toRemote) := logNext

theorem writtenNext : written c (log ++ es.map (σ,·)) = written c log ++ es.flatMap (Event.onto c) :=
  logNext

theorem closeTaken : (closeEvents σ i).flatMap (Event.taken c) = [] :=
  plainNothing (fun e plain => by cases e <;> first | rfl | cases plain) (fun _ mem => closePlain mem)

theorem loginTokenTaken {ver t es₀} (came : LoginToken σ i a ver t es₀) :
    es₀.flatMap (Event.taken c) = a.taken c := by
  cases came <;> simp [Event.taken,Action.taken]

theorem acceptPassTaken {mt timeout es₀} (pass : AcceptPass σ i a mt timeout es₀) :
    es₀.flatMap (Event.taken c) = a.taken c := by
  cases pass <;> simp [Event.taken,Action.taken]

theorem allowedTaken {t} : (allowedEvents σ i t).flatMap (Event.taken c) = [] := by
  unfold allowedEvents
  split <;> rfl

theorem generatedTaken {t} : (generatedEvents σ i s t).flatMap (Event.taken c) = [] := by
  unfold generatedEvents
  split <;> rfl

theorem hangsUpTaken (ending : HangsUp σ i a) : a.taken c = [] := by
  cases ending <;> rfl

theorem takenMoves (move : Moves cfg σ a σ' es) : es.flatMap (Event.taken c) = a.taken c := by
  cases move with
  | hangsUp ending => rw [closeTaken,hangsUpTaken ending]
  | refuses pc bad => simp [closeTaken,Event.taken,Action.taken]
  | enters pc next => simp [Event.taken,Action.taken]
  | loginRejected came has absent => simp [loginTokenTaken came,Event.taken]
  | loginFresh came allowed missing => simp [loginTokenTaken came,allowedTaken,Event.taken]
  | loginEvicts came allowed found => simp [loginTokenTaken came,allowedTaken,Event.taken]
  | connectMissing pc missing => simp [Event.taken,Action.taken]
  | connectFound pc found => simp [generatedTaken,Event.taken,Action.taken]
  | acceptOver pass => simp [acceptPassTaken pass,closeTaken]
  | acceptWaits pass left missing => simp [acceptPassTaken pass,Event.taken]
  | acceptMatches pass left found => simp [acceptPassTaken pass,closeTaken,Event.taken]
  | writeFails pc fail => simp [closeTaken,Event.taken,Action.taken]
  | _ => simp [Event.taken,Action.taken]

theorem closeMute : ∀ e ∈ closeEvents σ i, e.mute = true := by
  intro e mem
  have plain := closePlain mem
  cases e <;> first | rfl | cases plain

theorem loginTokenMute {ver t es₀} (came : LoginToken σ i a ver t es₀) : ∀ e ∈ es₀, e.mute = true := by
  cases came <;> simp [Event.mute]

theorem acceptPassMute {mt timeout es₀} (pass : AcceptPass σ i a mt timeout es₀) :
    ∀ e ∈ es₀, e.mute = true := by
  cases pass <;> simp [Event.mute]

theorem allowedMute {t} : ∀ e ∈ allowedEvents σ i t, e.mute = true := by
  unfold allowedEvents
  split <;> simp [Event.mute]

theorem generatedMute {t} : ∀ e ∈ generatedEvents σ i s t, e.mute = true := by
  unfold generatedEvents
  split <;> simp [Event.mute]

inductive Puts (σ : Server) (a : Action) (σ' : Server) (es : List Event) : Prop where
  | nothing (mute : ∀ e ∈ es, e.mute = true) (other : ∀ j toRemote data, a ≠ .relay j toRemote data)
  | speaks {j w sent n conn} (pc : σ.pc j = .writeSend w sent) (valid : σ.fds w.fd = some conn)
      (is : a = .send j n) (logged : es = [.sent j conn ((w.bytes.drop sent).take n)])
  | relays {j cl rm toRemote data conn} (pc : σ.pc j = .relay cl rm)
      (valid : σ.fds (if toRemote = true then rm else cl) = some conn)
      (is : a = .relay j toRemote data) (same : σ' = σ) (logged : es = [.relayed j conn data])

theorem putsMoves (move : Moves cfg σ a σ' es) : Puts σ a σ' es := by
  cases move with
  | sends pc positive room valid => exact .speaks pc valid rfl rfl
  | relays pc valid => exact .relays pc valid rfl rfl rfl
  | hangsUp ending => exact .nothing closeMute (fun _ _ _ is => by subst is; cases ending)
  | refuses pc bad =>
    exact .nothing (List.forall_mem_cons.mpr ⟨rfl,closeMute⟩) (fun _ _ _ is => by cases is)
  | loginRejected came has absent =>
    exact .nothing (List.forall_mem_append.mpr ⟨loginTokenMute came,by simp [Event.mute]⟩)
      (fun _ _ _ is => by subst is; cases came)
  | loginFresh came allowed missing =>
    exact .nothing (List.forall_mem_append.mpr ⟨List.forall_mem_append.mpr
      ⟨loginTokenMute came,allowedMute⟩,by simp [Event.mute]⟩) (fun _ _ _ is => by subst is; cases came)
  | loginEvicts came allowed found =>
    exact .nothing (List.forall_mem_append.mpr ⟨List.forall_mem_append.mpr
      ⟨loginTokenMute came,allowedMute⟩,by simp [Event.mute]⟩) (fun _ _ _ is => by subst is; cases came)
  | connectFound pc found =>
    exact .nothing (List.forall_mem_append.mpr ⟨List.forall_mem_append.mpr
      ⟨by simp [Event.mute],generatedMute⟩,by simp [Event.mute]⟩) (fun _ _ _ is => by cases is)
  | acceptOver pass =>
    exact .nothing (List.forall_mem_append.mpr ⟨acceptPassMute pass,closeMute⟩)
      (fun _ _ _ is => by subst is; cases pass)
  | acceptWaits pass left missing =>
    exact .nothing (List.forall_mem_append.mpr ⟨acceptPassMute pass,by simp [Event.mute]⟩)
      (fun _ _ _ is => by subst is; cases pass)
  | acceptMatches pass left found =>
    exact .nothing (List.forall_mem_append.mpr ⟨List.forall_mem_append.mpr
      ⟨acceptPassMute pass,by simp [Event.mute]⟩,closeMute⟩) (fun _ _ _ is => by subst is; cases pass)
  | writeFails pc fail =>
    exact .nothing (List.forall_mem_cons.mpr ⟨rfl,closeMute⟩) (fun _ _ _ is => by cases is)
  | _ => exact .nothing (by simp [Event.mute]) (fun _ _ _ is => by cases is)

def Settled (σ : Server) (c : Sid) : Prop :=
  ((σ.session c).type = .connect ∨ (σ.session c).type = .splice) ∨
    (c < σ.count ∧ (σ.session c).live = false)

theorem settledKept (reg : Registry σ) (move : Moves cfg σ a σ' es) (settled : Settled σ c) :
    Settled σ' c := by
  rcases settled with type | ⟨old,dead⟩
  · left
    rcases typeMoves reg move c with same | moved
    · rw [same]; exact type
    · rcases type with connect | splice
      · rw [connect] at moved
        generalize (σ'.session c).type = next at moved
        cases moved
        exact .inr rfl
      · rw [splice] at moved
        generalize (σ'.session c).type = next at moved
        cases moved
  · exact .inr ⟨Nat.lt_of_lt_of_le old (countMoves move),deadKept reg move (Nat.ne_of_lt old) dead⟩

def wasForward (t : SessionType) : Prop := t = .forward ∨ t = .closed

def ForwardTargets (σ : Server) : Prop :=
  ∀ j w mt, (σ.pc j).write = some w → w.after = .connect mt → wasForward (σ.session w.target).type

theorem wasForwardKept (reg : Registry σ) (move : Moves cfg σ a σ' es)
    (forward : wasForward (σ.session c).type) : wasForward (σ'.session c).type := by
  rcases typeMoves reg move c with same | moved
  · rw [same]; exact forward
  · rcases forward with is | is
    · rw [is] at moved
      generalize (σ'.session c).type = next at moved
      cases moved
      exact .inr rfl
    · rw [is] at moved
      generalize (σ'.session c).type = next at moved
      cases moved

theorem forwardTargetsNext (reg : Registry σ) (inv : ForwardTargets σ) (move : Moves cfg σ a σ' es) :
    ForwardTargets σ' := by
  intro j w mt writes after
  cases writesMoves reg move writes with
  | @carried w₀ fd old => exact wasForwardKept reg move (inv j w₀ mt old after)
  | keepAlive is pc cmdIs => contradiction
  | login came allowed token logged => contradiction
  | connect is pc found logged => exact wasForwardKept reg move (.inl (findSound found).2.1)

theorem speaksTo {w sent conn} (safe : WritersSafe σ) (writing : ∀ i, WritingAt σ i)
    (targets : ForwardTargets σ) (pc : σ.pc i = .writeSend w sent) (valid : σ.fds w.fd = some conn) :
    conn = w.target ∧ (σ.session conn).live = true ∧
      ((conn = i ∧ ∀ mt, w.after ≠ .connect mt) ∨ (conn ≠ i ∧ wasForward (σ.session conn).type)) := by
  have writes : (σ.pc i).write = some w := by rw [pc]; rfl
  obtain ⟨live,_,open'⟩ := safe i w writes
  rw [valid] at open'
  cases open'
  refine ⟨rfl,live,?_⟩
  have shape := ((writing i).shape w writes).2
  unfold WriteShape at shape
  cases after : w.after with
  | login ver => simp only [after] at shape; exact .inl ⟨shape.1,by simp⟩
  | connect mt => simp only [after] at shape; exact .inr ⟨shape.1,targets i w mt writes after⟩
  | keepAlive => simp only [after] at shape; exact .inl ⟨shape.1,by simp⟩

theorem ownReplyType {w sent} (reg : Registry σ) (pc : σ.pc i = .writeSend w sent)
    (own : ∀ mt, w.after ≠ .connect mt) :
    (σ.session i).type ≠ .connect ∧ (σ.session i).type ≠ .splice := by
  have fits := reg.fits i
  rw [pc] at fits
  cases after : w.after with
  | connect mt => exact absurd after (own mt)
  | login ver => simp only [Fits,after,reduceCtorEq,if_false,decide_eq_true_eq] at fits; simp [fits]
  | keepAlive =>
    simp only [Fits,after,if_true] at fits
    constructor <;> (intro is; rw [is] at fits; contradiction)

theorem speaksUnsettled {w sent conn} (reg : Registry σ) (safe : WritersSafe σ)
    (writing : ∀ i, WritingAt σ i) (targets : ForwardTargets σ) (pc : σ.pc i = .writeSend w sent)
    (valid : σ.fds w.fd = some conn) : ¬ Settled σ conn := by
  obtain ⟨_,live,who⟩ := speaksTo safe writing targets pc valid
  rintro (type | ⟨_,dead⟩)
  · rcases who with ⟨rfl,own⟩ | ⟨_,forward⟩
    · have other := ownReplyType reg pc own
      exact type.elim other.1 other.2
    · rcases type with is | is <;> rw [is] at forward <;> rcases forward with bad | bad <;> cases bad
  · rw [live] at dead
    contradiction

theorem fdsMoves (reg : Registry σ) (owned : Owned σ) (move : Moves cfg σ a σ' es) {fd : Int} {c : Sid}
    (open' : σ'.fds fd = some c) : σ.fds fd = some c ∨ σ.fds fd = none := by
  have closed : ∀ (σ₀ : Server) (k : Sid), σ₀.fds = σ.fds →
      (closeSession cfg σ₀ k).fds fd = some c → σ.fds fd = some c := by
    intro σ₀ k same h
    simp only [closeSessionFds,same,closeFdApply] at h
    split at h
    · contradiction
    · split at h
      · contradiction
      · exact h
  cases socketMoves reg owned move with
  | quiet same silent => exact .inl (same.fds ▸ open')
  | @opened fd' valid free =>
    by_cases same : fd = fd'
    · subst same; exact .inr free
    · left
      simpa [opened,Function.update_of_ne same] using open'
  | refused => exact .inl open'
  | closes live same owned silent => exact .inl (closed _ _ same.fds open')
  | @hands i k es live other alive vacant unset silent => exact .inl (closed (handOver cfg σ i k) i rfl open')

theorem remoteMoves (reg : Registry σ) (move : Moves cfg σ a σ' es) (set : 0 ≤ (σ'.session s).remoteFd) :
    (σ'.session s).remoteFd = (σ.session s).remoteFd ∨
      ∃ i, (i,s) ∈ es.filterMap Event.pair ∧ (σ.pc i).runs = true ∧ serving (σ.session i).type = true ∧
        (σ'.session s).remoteFd = (σ.session i).clientFd := by
  have closed : ∀ (σ₀ : Server) (k : Sid),
      ((closeSession cfg σ₀ k).session s).remoteFd = (σ₀.session s).remoteFd := by
    intro σ₀ k
    rw [closeSessionSession,Function.update_apply]
    split <;> simp_all
  have updated : ∀ {j : Sid} {x : Session}, σ'.session = Function.update σ.session j x →
      x.remoteFd = (σ.session j).remoteFd → (σ'.session s).remoteFd = (σ.session s).remoteFd := by
    intro j x same remote
    rw [same,Function.update_apply]
    split <;> simp_all
  have registered : ∀ (k t : Sid) (x : Session), x.remoteFd = (σ.session k).remoteFd →
      ((register cfg (unlock σ t) k x).session s).remoteFd = (σ.session s).remoteFd := by
    intro k t x remote
    rw [registerSession,Function.update_apply]
    split <;> simp_all [unlockSession]
  cases move with
  | @acceptMatches i a mt timeout es t pass left found =>
    obtain ⟨runs,serves⟩ := acceptPassPlace reg pass
    obtain ⟨other,_⟩ := acceptFinds serves found
    rw [closed,handOverSession σ cfg other]
    by_cases self : s = i
    · subst self; exact .inl (by simp)
    · by_cases same : s = t
      · subst same
        refine .inr ⟨i,by simp [List.filterMap_append,Event.pair],runs,serves,by simp [self]⟩
      · exact .inl (by simp [self,same])
  | @opened fd valid free =>
    by_cases new : s = σ.count
    · subst new; simp [opened,newSession] at set
    · exact .inl (by simp [opened,Function.update_of_ne new])
  | hangsUp ending => exact .inl (closed _ _)
  | refuses pc bad => exact .inl (closed _ _)
  | acceptOver pass => exact .inl (closed _ _)
  | writeFails pc fail => exact .inl (by rw [closed,unlockSession])
  | loginRejected came has absent => exact .inl (updated rfl rfl)
  | loginFresh came allowed missing => exact .inl (updated rfl rfl)
  | @loginEvicts i a ver t es k came allowed found =>
    have other := (loginFinds (loginTokenPlace reg came).2.1 found).1
    left
    by_cases at' : s = k
    · subst at'; simp [writeMessage,setToken,other]
    · by_cases self : s = i
      · subst self; simp [writeMessage,setToken,at']
      · simp [writeMessage,setToken,at',self]
  | locks pc free => exact .inl (updated rfl rfl)
  | loginRegisters pc done is => exact .inl (registered _ _ _ (by simp [forwardSession,unlockSession]))
  | connectWaits pc done is left unset =>
    exact .inl (registered _ _ _ (by simp [connectSession,unlockSession]))
  | connectRelays pc done is leaves =>
    exact .inl (registered _ _ _ (by simp [connectSession,unlockSession]))
  | kept pc done is => exact .inl (by simp [unlockSession])
  | _ => exact .inl rfl

structure Relaying (σ : Server) (log : Log Server Event) : Prop where
  remote : ∀ s, (σ.session s).live = true → 0 ≤ (σ.session s).remoteFd →
    ∃ i, σ.fds (σ.session s).remoteFd = some i ∧ (i,s) ∈ pairs log
  givers : ∀ pair ∈ pairs log, serving (σ.session pair.1).type = true
  relays : ∀ σ₁ s conn data, (σ₁,Event.relayed s conn data) ∈ log →
    ((σ.session s).type = .connect ∨ (σ.session s).type = .splice) ∧
      (conn = s ∨ (conn,s) ∈ pairs log)

theorem servingKept (reg : Registry σ) (move : Moves cfg σ a σ' es)
    (serves : serving (σ.session i).type = true) (idle : ∀ w n, σ.pc i = .writeSend w n →
    ∀ mt, w.after ≠ .connect mt) :
    serving (σ'.session i).type = true := by
  obtain ⟨s,lock,change,session⟩ := changesMoves reg move i
  rw [session]
  cases change with
  | opened fresh nobody => rfl
  | forward is pc done after => rfl
  | connect is pc done after logged => exact absurd after (idle _ _ pc _)
  | evicted came allowed found logged => rfl
  | spliced pass found logged => simp [(acceptFinds (acceptPassPlace reg pass).2 found).2.2.1,serving] at serves
  | _ => exact serves

theorem pairsMono {pair : Sid × Sid} (mem : pair ∈ pairs log) : pair ∈ pairs (log ++ es.map (σ,·)) := by
  rw [pairsNext]
  exact List.mem_append_left _ mem

theorem relayPlace {cl rm} (reg : Registry σ) (pc : σ.pc i = .relay cl rm) :
    (σ.session i).live = true ∧ ((σ.session i).type = .connect ∨ (σ.session i).type = .splice) := by
  have fits := reg.fits i
  exact ⟨registryLive reg (by simp [pc,Pc.runs]),by simpa [pc,Fits] using fits⟩

theorem relayTarget {cl rm toRemote conn} (reg : Registry σ) (owned : Owned σ) (inv : Relaying σ log)
    (held : RelayHeld σ i) (pc : σ.pc i = .relay cl rm)
    (valid : σ.fds (if toRemote = true then rm else cl) = some conn) :
    if toRemote = true then (conn,i) ∈ pairs log else conn = i := by
  obtain ⟨live,_⟩ := relayPlace reg pc
  obtain ⟨client,set⟩ := held cl rm pc
  cases toRemote with
  | false =>
    simp only [Bool.false_eq_true,if_false,client,(owned.client i live).2] at valid ⊢
    exact (Option.some.inj valid).symm
  | true =>
    simp only [if_true] at valid ⊢
    obtain ⟨_,remote⟩ := set (owned.valid _ _ valid).1
    obtain ⟨j,open',mem⟩ := inv.remote i live (remote ▸ (owned.valid _ _ valid).1)
    rw [remote,open'] at valid
    cases valid
    exact mem

theorem remoteOld (reg : Registry σ) (move : Moves cfg σ a σ' es) (live : (σ'.session s).live = true)
    (set : 0 ≤ (σ'.session s).remoteFd) : (σ.session s).live = true := by
  obtain ⟨x,lock,change,session⟩ := changesMoves reg move s
  rw [session] at live set
  cases change with
  | opened fresh nobody => simp [newSession] at set
  | closed ending => simp at live
  | handed pass ending => simp at live
  | _ => exact live

theorem relayingNext (reg : Registry σ) (owned : Owned σ) (held : ∀ j, RelayHeld σ j)
    (once : PairedOnce σ log) (inv : Relaying σ log) (move : Moves cfg σ a σ' es) :
    Relaying σ' (log ++ es.map (σ,·)) := by
  have owned' := ownedMoves reg owned move
  refine ⟨?_,?_,?_⟩
  · intro s live set
    have live₀ := remoteOld reg move live set
    obtain ⟨c,open',_⟩ := owned'.remote s live set
    have before := fdsMoves reg owned move open'
    rcases remoteMoves reg move set with same | ⟨i,mem,runs,_,is⟩
    · rw [same] at set open' before ⊢
      obtain ⟨i,open₀,mem⟩ := inv.remote s live₀ set
      rw [open₀] at before
      rcases before with here | free
      · cases here
        exact ⟨_,open',pairsMono mem⟩
      · contradiction
    · rw [is] at open' before ⊢
      rw [(owned.client i (registryLive reg runs)).2] at before
      rcases before with here | free
      · cases here
        exact ⟨_,open',by rw [pairsNext]; exact List.mem_append_right _ mem⟩
      · contradiction
  · intro pair mem
    rw [pairsNext] at mem
    rcases List.mem_append.mp mem with old | new
    · have dead := (once.ending pair old).2.1
      refine servingKept reg move (inv.givers pair old) (fun w n pc => ?_)
      rw [reg.running,pc] at dead
      contradiction
    · obtain ⟨e,inside,is⟩ := List.mem_filterMap.mp new
      cases e <;> simp only [Event.pair,reduceCtorEq,Option.some.injEq] at is
      subst is
      cases movesLogs move inside with
      | plain is => contradiction
      | matched pass left found next logged =>
        obtain ⟨_,serves⟩ := acceptPassPlace reg pass
        obtain ⟨other,_⟩ := acceptFinds serves found
        subst next
        simpa [handOverSession σ cfg other] using serves
  · intro σ₁ s conn data mem
    rcases memNext.mp mem with old | ⟨rfl,new⟩
    · obtain ⟨type,where'⟩ := inv.relays σ₁ s conn data old
      refine ⟨?_,where'.imp id pairsMono⟩
      rcases type with is | is
      · rcases typeMoves reg move s with same | moved
        · exact .inl (same.trans is)
        · rw [is] at moved
          generalize (σ'.session s).type = next at moved ⊢
          cases moved
          exact .inr rfl
      · exact .inr (spliceKept reg move is).1
    · cases putsMoves move with
      | nothing mute other => simpa [Event.mute] using mute _ new
      | speaks pc valid is logged => simp [logged] at new
      | @relays j cl rm toRemote data' conn' pc valid is same logged =>
        rw [logged] at new
        cases List.mem_singleton.mp new
        subst same
        have target := relayTarget reg owned inv (held s) pc valid
        refine ⟨(relayPlace reg pc).2,?_⟩
        cases toRemote with
        | false => exact .inl target
        | true => exact .inr (pairsMono target)

structure Ordered (σ : Server) (log : Log Server Event) : Prop where
  splits : ∀ c, written c log = spoken c log ++ relayedTo c log
  settled : ∀ c, relayedTo c log ≠ [] → Settled σ c

theorem muteNothing (mute : ∀ e ∈ es, e.mute = true) :
    (∀ c, es.flatMap (Event.spoken c) = []) ∧ (∀ c, es.flatMap (Event.relayedTo c) = []) ∧
      (∀ c, es.flatMap (Event.onto c) = []) ∧ ∀ s r, es.flatMap (Event.passed s r) = [] := by
  have each : ∀ e ∈ es, (∀ c, e.spoken c = []) ∧
      (∀ c, e.relayedTo c = []) ∧ ∀ s r, e.passed s r = [] := by
    intro e mem
    have is := mute e mem
    cases e <;> first | contradiction | exact ⟨fun _ => rfl,fun _ => rfl,fun _ _ => rfl⟩
  refine ⟨fun c => ?_,fun c => ?_,fun c => ?_,fun s r => ?_⟩
  all_goals refine List.flatMap_eq_nil_iff.mpr (fun e mem => ?_)
  · exact (each e mem).1 c
  · exact (each e mem).2.1 c
  · simp [Event.onto,(each e mem).1 c,(each e mem).2.1 c]
  · exact (each e mem).2.2 s r

theorem orderedNext (reg : Registry σ) (owned : Owned σ) (held : ∀ j, RelayHeld σ j)
    (safe : WritersSafe σ) (writing : ∀ i, WritingAt σ i) (targets : ForwardTargets σ)
    (once : PairedOnce σ log) (relaying : Relaying σ log) (inv : Ordered σ log)
    (move : Moves cfg σ a σ' es) : Ordered σ' (log ++ es.map (σ,·)) := by
  cases putsMoves move with
  | nothing mute other =>
    obtain ⟨spoken',relayed',onto',_⟩ := muteNothing mute
    refine ⟨fun c => ?_,fun c some' => settledKept reg move (inv.settled c ?_)⟩
    · rw [writtenNext,spokenNext,relayedToNext,spoken',relayed',onto']
      simpa using inv.splits c
    · rwa [relayedToNext,relayed',List.append_nil] at some'
  | @speaks j w sent n conn pc valid is logged =>
    have unsettled := speaksUnsettled reg safe writing targets pc valid
    have quiet : ∀ c, es.flatMap (Event.relayedTo c) = [] := by simp [logged,Event.relayedTo]
    refine ⟨fun c => ?_,fun c some' => settledKept reg move (inv.settled c ?_)⟩
    · rw [writtenNext,spokenNext,relayedToNext,inv.splits c,quiet]
      by_cases same : conn = c
      · subst same
        have none' : relayedTo conn log = [] := by
          by_contra some'
          exact unsettled (inv.settled conn some')
        simp [none',logged,Event.onto,Event.relayedTo]
      · simp [logged,Event.onto,Event.spoken,Event.relayedTo,same]
    · rwa [relayedToNext,quiet,List.append_nil] at some'
  | @relays j cl rm toRemote data conn pc valid is same logged =>
    subst same
    have quiet : ∀ c, es.flatMap (Event.spoken c) = [] := by simp [logged,Event.spoken]
    refine ⟨fun c => ?_,fun c some' => ?_⟩
    · rw [writtenNext,spokenNext,relayedToNext,inv.splits c,quiet]
      simp [logged,Event.onto,Event.spoken]
    · by_cases at' : conn = c
      · subst at'
        have target := relayTarget reg owned relaying (held j) pc valid
        cases toRemote with
        | false =>
          cases target
          exact .inl (relayPlace reg pc).2
        | true =>
          have ending := once.ending _ target
          exact .inr ⟨ending.1,ending.2.1⟩
      · refine inv.settled c ?_
        rwa [relayedToNext,logged,List.flatMap_cons,List.flatMap_nil,Event.relayedTo,if_neg at',
          List.append_nil,List.append_nil] at some'

end steps

def PeerByte (b : UInt8) : Prop :=
  Command.ofByte b = some .connect ∨ Command.ofByte b = some .accept

def Pc.opens : Pc → Bool
  | .connectRecv | .acceptRecv | .ended => true
  | _ => false

def Pc.past : Pc → Bool
  | .rejected _ | .acceptWait _ _ | .spliceWait _ | .relay _ _ | .ended => true
  | .writeLock w | .writeSend w _ => match w.after with
      | .connect _ => true
      | _ => false
  | _ => false

def Pc.fresh : Pc → Bool
  | .absent | .recvMessage | .ended => true
  | _ => false

def Unspoken (σ : Server) (log : Log Server Event) (c : Sid) : Prop :=
  spoken c log = [] ∧ ¬ wasForward (σ.session c).type

structure Unserved (σ : Server) (log : Log Server Event) (c : Sid) : Prop where
  type : (σ.session c).type = .null
  free : ∀ s, (c,s) ∉ pairs log

/- A client whose first message is CONNECT or ACCEPT: that message and its token are
all that is ever read of it outside the relay. -/
inductive Opening (σ : Server) (log : Log Server Event) (c : Sid) : Prop where
  | silent (reads : handled c log = []) (quiet : Unspoken σ log c) (early : Unserved σ log c)
      (place : (σ.pc c).fresh = true)
  | asks {v b} (reads : handled c log = [v,b]) (peer : PeerByte b) (quiet : Unspoken σ log c)
      (early : Unserved σ log c) (place : (σ.pc c).opens = true)
  | asked {v b} {t : Token} (reads : handled c log = v :: b :: t.bytes) (peer : PeerByte b)
      (quiet : Unspoken σ log c) (place : (σ.pc c).past = true)
  | other {v b rest} (reads : handled c log = v :: b :: rest) (else' : ¬ PeerByte b)

section openings
variable {cfg : Config} {σ σ' : Server} {log : Log Server Event} {c : Sid} {a : Action}
  {es : List Event}

theorem readsTokenCases {p : Pc} (reads : p.readsToken = true) :
    (∃ ver, p = .loginRecv ver) ∨ p = .connectRecv ∨ p = .acceptRecv := by
  cases p with
  | loginRecv ver => exact .inl ⟨ver,rfl⟩
  | connectRecv => exact .inr (.inl rfl)
  | acceptRecv => exact .inr (.inr rfl)
  | _ => contradiction

theorem pastSend {w : Write} {n : Nat} (place : (Pc.writeSend w n).past = true) :
    ∃ mt, w.after = .connect mt := by
  change (match w.after with | .connect _ => true | _ => false) = true at place
  cases after : w.after with
  | connect mt => exact ⟨mt,rfl⟩
  | login ver => rw [after] at place; contradiction
  | keepAlive => rw [after] at place; contradiction

theorem freshStep (taken : step cfg σ a = some (σ',es)) (mine : a.task = some c)
    (place : (σ.pc c).fresh = true) : ∃ msg random, a = .recvMessage c msg random := by
  cases a <;> simp only [Action.task,Option.some.injEq,reduceCtorEq] at mine <;> subst mine
  case recvMessage => exact ⟨_,_,rfl⟩
  case recvToken i mt random =>
    have reads := recvTokenReads taken
    obtain ⟨ver,pc⟩ | pc | pc := readsTokenCases reads <;> rw [pc] at place <;> contradiction
  all_goals
    simp only [step,wake,lock,send,sendReturn,relay] at taken
    split at taken <;> simp_all [Pc.fresh]

theorem opensStep (taken : step cfg σ a = some (σ',es)) (mine : a.task = some c)
    (place : (σ.pc c).opens = true) : ∃ mt random, a = .recvToken c mt random := by
  cases a <;> simp only [Action.task,Option.some.injEq,reduceCtorEq] at mine <;> subst mine
  case recvToken => exact ⟨_,_,rfl⟩
  all_goals
    simp only [step,wake,lock,send,sendReturn,relay] at taken
    split at taken <;> simp_all [Pc.opens]

theorem pastStep (taken : step cfg σ a = some (σ',es)) (place : (σ.pc c).past = true) :
    a.taken c = [] := by
  cases a with
  | recvMessage i msg random =>
    by_cases same : i = c
    · subst same
      simp only [step] at taken
      split at taken <;> try contradiction
      rename_i pc
      rw [pc] at place
      contradiction
    · cases msg <;> simp [Action.taken,same]
  | recvToken i mt random =>
    by_cases same : i = c
    · subst same
      have reads := recvTokenReads taken
      obtain ⟨ver,pc⟩ | pc | pc := readsTokenCases reads <;> rw [pc] at place <;> contradiction
    · cases mt <;> simp [Action.taken,same]
  | _ => rfl

theorem pastKept (reg : Registry σ) (move : Moves cfg σ a σ' es) (place : (σ.pc c).past = true) :
    (σ'.pc c).past = true := by
  have arrives := arrivesMoves reg move (j := c)
  generalize σ'.pc c = p at arrives
  cases arrives with
  | stays away => exact place
  | opened fresh nobody => rw [reg.ahead c (Nat.le_of_eq fresh.symm)] at place; contradiction
  | enters is pc next logged => rw [pc] at place; contradiction
  | login came allowed token logged =>
    cases came with
    | first pc is type => rw [pc] at place; contradiction
    | zero pc => rw [pc] at place; contradiction
    | client pc nonzero => rw [pc] at place; contradiction
  | connect is pc found logged => rfl
  | locks is pc free logged => rw [pc] at place; exact place
  | sends is pc positive room valid logged => rw [pc] at place; exact place
  | registered is pc after forward =>
    rw [pc] at place
    obtain ⟨mt,connects⟩ := pastSend place
    rw [after] at connects
    contradiction
  | kept is pc after =>
    rw [pc] at place
    obtain ⟨mt,connects⟩ := pastSend place
    rw [after] at connects
    contradiction
  | _ => rfl

theorem otherTaken (other : a.task ≠ some c) : a.taken c = [] := by
  cases a with
  | recvMessage i msg random =>
    have apart : i ≠ c := by rintro rfl; exact other rfl
    cases msg <;> simp [Action.taken,apart]
  | recvToken i mt random =>
    have apart : i ≠ c := by rintro rfl; exact other rfl
    cases mt <;> simp [Action.taken,apart]
  | _ => rfl

theorem otherPlace (reg : Registry σ) (move : Moves cfg σ a σ' es) (other : a.task ≠ some c) :
    σ'.pc c = σ.pc c ∨ (σ.pc c = .absent ∧ (σ'.pc c).fresh = true) := by
  by_cases new : c = σ.count
  · have absent := reg.ahead c (Nat.le_of_eq new.symm)
    have arrives := arrivesMoves reg move (j := c)
    generalize σ'.pc c = p at arrives
    cases arrives with
    | stays away => exact .inl rfl
    | opened fresh nobody => exact .inr ⟨absent,rfl⟩
    | ended mine => exact absurd mine other
    | rejected mine => exact absurd mine other
    | login came allowed token logged => exact absurd (loginTokenTask came) other
    | accept pass logged => exact absurd (acceptPassTask pass) other
    | enters is pc next logged => rw [absent] at pc; contradiction
    | connect is pc found logged => rw [absent] at pc; contradiction
    | locks is pc free logged => rw [absent] at pc; contradiction
    | sends is pc positive room valid logged => rw [absent] at pc; contradiction
    | registered is pc after forward => rw [absent] at pc; contradiction
    | kept is pc after => rw [absent] at pc; contradiction
    | connected is pc after => rw [absent] at pc; contradiction
    | waits is pc => rw [absent] at pc; contradiction
    | connectRelays is pc after logged => rw [absent] at pc; contradiction
    | spliceRelays is pc logged => rw [absent] at pc; contradiction
  · exact .inl (placeMoves move other new)

theorem unspokenKept (reg : Registry σ) (safe : WritersSafe σ) (writing : ∀ i, WritingAt σ i)
    (targets : ForwardTargets σ) (move : Moves cfg σ a σ' es) (quiet : Unspoken σ log c)
    (owed : ∀ w n, σ.pc c = .writeSend w n → ∃ mt, w.after = .connect mt) :
    Unspoken σ' (log ++ es.map (σ,·)) c := by
  obtain ⟨none',type⟩ := quiet
  constructor
  · rw [spokenNext,none',List.nil_append]
    cases putsMoves move with
    | nothing mute other => exact (muteNothing mute).1 c
    | relays pc valid is same logged => simp [logged,Event.spoken]
    | @speaks j w sent n conn pc valid is logged =>
      have apart : conn ≠ c := by
        rintro rfl
        obtain ⟨_,_,⟨rfl,own⟩ | ⟨_,forward⟩⟩ := speaksTo safe writing targets pc valid
        · obtain ⟨mt,after⟩ := owed w sent pc
          exact own mt after
        · exact type forward
      simp [logged,Event.spoken,apart]
  · obtain ⟨s,lock,change,session⟩ := changesMoves reg move c
    rw [session]
    cases change with
    | opened fresh nobody => simp [newSession,wasForward]
    | forward is pc done after =>
      obtain ⟨mt,after'⟩ := owed _ _ pc
      rw [after] at after'
      contradiction
    | connect is pc done after logged => simp [connectSession,wasForward]
    | evicted came allowed found logged =>
      exact absurd (.inl (loginFinds (loginTokenPlace reg came).2.1 found).2.2.1) type
    | spliced pass found logged => simp [wasForward]
    | _ => exact type

theorem freshOwed (place : (σ.pc c).fresh = true) :
    ∀ w n, σ.pc c = .writeSend w n → ∃ mt, w.after = .connect mt := by
  intro w n pc
  rw [pc] at place
  contradiction

theorem opensOwed (place : (σ.pc c).opens = true) :
    ∀ w n, σ.pc c = .writeSend w n → ∃ mt, w.after = .connect mt := by
  intro w n pc
  rw [pc] at place
  contradiction

theorem pastOwed (place : (σ.pc c).past = true) :
    ∀ w n, σ.pc c = .writeSend w n → ∃ mt, w.after = .connect mt := by
  intro w n pc
  rw [pc] at place
  exact pastSend place

theorem firstMessage {v b random} (taken : step cfg σ (.recvMessage c (some (v,b)) random) = some (σ',es))
    (peer : PeerByte b) : (σ'.pc c).opens = true := by
  simp only [step] at taken
  split at taken <;> try contradiction
  cases Option.some.inj taken
  rcases peer with is | is
  · simp only [dispatch,is]
    split <;> simp [Pc.opens]
  · simp [dispatch,is,Pc.opens]

theorem failedMessage {random} (taken : step cfg σ (.recvMessage c none random) = some (σ',es)) :
    σ'.pc c = .ended := by
  simp only [step] at taken
  split at taken <;> try contradiction
  cases Option.some.inj taken
  simp

theorem failedToken {random} (taken : step cfg σ (.recvToken c none random) = some (σ',es)) :
    σ'.pc c = .ended := by
  simp only [step] at taken
  split at taken <;> try contradiction
  cases Option.some.inj taken
  simp

theorem tokenPast {t random} (reg : Registry σ)
    (taken : step cfg σ (.recvToken c (some t) random) = some (σ',es)) (place : (σ.pc c).opens = true) :
    (σ'.pc c).past = true := by
  have arrives := arrivesMoves reg (stepMoves taken) (j := c)
  generalize σ'.pc c = p at arrives
  cases arrives with
  | stays away =>
    obtain ⟨_,_,is⟩ := away rfl
    contradiction
  | opened fresh nobody => contradiction
  | ended mine => rfl
  | rejected mine => rfl
  | login came allowed token logged =>
    cases came with
    | zero pc => rw [pc] at place; contradiction
    | client pc nonzero => rw [pc] at place; contradiction
  | connect is pc found logged => rfl
  | accept pass logged => rfl
  | _ => contradiction

theorem unservedKept (reg : Registry σ) (taken : step cfg σ a = some (σ',es)) (early : Unserved σ log c)
    (place : (σ.pc c).fresh = true ∨ ((σ.pc c).opens = true ∧ a.taken c = [])) :
    Unserved σ' (log ++ es.map (σ,·)) c := by
  have move := stepMoves taken
  have idle : ∀ w n, σ.pc c ≠ .writeSend w n := by
    intro w n pc
    rw [pc] at place
    rcases place with bad | ⟨bad,_⟩ <;> contradiction
  constructor
  · obtain ⟨s,lock,change,session⟩ := changesMoves reg move c
    rw [session]
    cases change with
    | opened fresh nobody => rfl
    | forward is pc done after => exact absurd pc (idle _ _)
    | connect is pc done after logged => exact absurd pc (idle _ _)
    | evicted came allowed found logged =>
      have type := (loginFinds (loginTokenPlace reg came).2.1 found).2.2.1
      rw [early.type] at type
      contradiction
    | spliced pass found logged =>
      have type := (acceptFinds (acceptPassPlace reg pass).2 found).2.2.1
      rw [early.type] at type
      contradiction
    | _ => exact early.type
  · intro s mem
    rw [pairsNext] at mem
    rcases List.mem_append.mp mem with old | new
    · exact early.free s old
    · obtain ⟨e,inside,is⟩ := List.mem_filterMap.mp new
      cases e with
      | matched i' s' t fd =>
        simp only [Event.pair,Option.some.injEq,Prod.mk.injEq] at is
        obtain ⟨rfl,rfl⟩ := is
        cases movesLogs move inside with
        | plain is => contradiction
        | matched pass left found next logged =>
          cases pass with
          | first pc =>
            rw [pc] at place
            rcases place with bad | ⟨_,none'⟩
            · contradiction
            · have size := t.size
              simp [Action.taken] at none'
              simp [none'] at size
          | again pc less =>
            rw [pc] at place
            rcases place with bad | ⟨bad,_⟩ <;> contradiction
      | _ => simp [Event.pair] at is

theorem openingNext (reg : Registry σ) (safe : WritersSafe σ) (writing : ∀ i, WritingAt σ i)
    (targets : ForwardTargets σ) (inv : Opening σ log c) (taken : step cfg σ a = some (σ',es)) :
    Opening σ' (log ++ es.map (σ,·)) c := by
  have move := stepMoves taken
  have reads : handled c (log ++ es.map (σ,·)) = handled c log ++ a.taken c := by
    rw [handledNext,takenMoves move]
  cases inv with
  | silent none' quiet early place =>
    have quiet' := unspokenKept reg safe writing targets move quiet (freshOwed place)
    have early' := unservedKept reg taken early (.inl place)
    by_cases mine : a.task = some c
    · obtain ⟨msg,random,rfl⟩ := freshStep taken mine place
      cases msg with
      | none =>
        exact .silent (by simp [reads,none',Action.taken]) quiet' early' (by rw [failedMessage taken]; rfl)
      | some msg =>
        obtain ⟨v,b⟩ := msg
        have two : handled c (log ++ es.map (σ,·)) = [v,b] := by simp [reads,none',Action.taken]
        by_cases peer : PeerByte b
        · exact .asks two peer quiet' early' (firstMessage taken peer)
        · exact .other two peer
    · refine .silent (by rw [reads,none',otherTaken mine]; rfl) quiet' early' ?_
      rcases otherPlace reg move mine with same | ⟨_,fresh⟩
      · rw [same]; exact place
      · exact fresh
  | @asks v b two peer quiet early place =>
    have quiet' := unspokenKept reg safe writing targets move quiet (opensOwed place)
    by_cases mine : a.task = some c
    · obtain ⟨mt,random,rfl⟩ := opensStep taken mine place
      cases mt with
      | none =>
        have same : handled c (log ++ es.map (σ,·)) = [v,b] := by simp [reads,two,Action.taken]
        have early' := unservedKept reg taken early (.inr ⟨place,rfl⟩)
        exact .asks same peer quiet' early' (by rw [failedToken taken]; rfl)
      | some t =>
        have all : handled c (log ++ es.map (σ,·)) = v :: b :: t.bytes := by
          simp [reads,two,Action.taken]
        exact .asked all peer quiet' (tokenPast reg taken place)
    · have early' := unservedKept reg taken early (.inr ⟨place,otherTaken mine⟩)
      refine .asks (by rw [reads,two,otherTaken mine]; rfl) peer quiet' early' ?_
      rcases otherPlace reg move mine with same | ⟨absent,_⟩
      · rw [same]; exact place
      · rw [absent] at place; contradiction
  | asked all peer quiet place =>
    have quiet' := unspokenKept reg safe writing targets move quiet (pastOwed place)
    exact .asked (by rw [reads,all,pastStep taken place,List.append_nil]) peer quiet'
      (pastKept reg move place)
  | other some' else' => exact .other (by rw [reads,some']; rfl) else'

end openings

section runs
variable {cfg : Config} {ok : Server → Action → Prop} {σ : Server} {log : Log Server Event}

theorem forwardTargetsRun (run : Run (machine cfg) ok σ log) : ForwardTargets σ := by
  refine runInvariant (P := fun σ _ => ForwardTargets σ) ?_ ?_ run
  · intro j w mt writes
    simp [machine,init,Pc.write] at writes
  · intro s log a s' es run _ taken inv
    exact forwardTargetsNext (registryRun run) inv (stepMoves taken)

theorem relayingRun (run : Run (machine cfg) ok σ log) : Relaying σ log := by
  refine runInvariant (P := fun σ log => Relaying σ log) ?_ ?_ run
  · refine ⟨?_,?_,?_⟩ <;> simp [machine,init,unborn,pairs]
  · intro s log a s' es run _ taken inv
    exact relayingNext (registryRun run) (ownedRun run) (relayHeldRun run) (pairedOnceRun run) inv
      (stepMoves taken)

theorem orderedRun (quiet : ∀ σ a, ok σ a → Undisturbed σ a) (run : Run (machine cfg) ok σ log) :
    Ordered σ log := by
  refine runInvariant (P := fun σ log => Ordered σ log) ?_ ?_ run
  · refine ⟨?_,?_⟩ <;> simp [written,spoken,relayedTo]
  · intro s log a s' es run _ taken inv
    exact orderedNext (registryRun run) (ownedRun run) (relayHeldRun run) (writersSafe quiet run)
      (writingRun run) (forwardTargetsRun run) (pairedOnceRun run) (relayingRun run) inv
      (stepMoves taken)

theorem openingRun (quiet : ∀ σ a, ok σ a → Undisturbed σ a) (run : Run (machine cfg) ok σ log)
    (c : Sid) : Opening σ log c := by
  refine runInvariant (P := fun σ log => Opening σ log c) ?_ ?_ run
  · exact .silent rfl ⟨rfl,by simp [machine,init,unborn,wasForward]⟩ ⟨rfl,by simp [pairs]⟩ rfl
  · intro s log a s' es run _ taken inv
    exact openingNext (registryRun run) (writersSafe quiet run) (writingRun run)
      (forwardTargetsRun run) inv taken

theorem relayedPassed (run : Run (machine cfg) ok σ log) {i s : Sid} (paired : (i,s) ∈ pairs log) :
    relayedTo i log = passed s true log ∧ relayedTo s log = passed s false log := by
  have inv := relayingRun run
  have once := pairedOnceRun run
  have ending := once.ending _ paired
  have serves := inv.givers _ paired
  have notRelay : ∀ {σ₁ conn data}, (σ₁,Event.relayed i conn data) ∉ log := by
    intro σ₁ conn data mem
    rcases (inv.relays σ₁ i conn data mem).1 with is | is <;> simp [is,serving] at serves
  have giver : ∀ {j}, (i,j) ∈ pairs log → j = s := fun mem =>
    congrArg Prod.snd (List.inj_on_of_nodup_map once.givers mem paired rfl)
  have taker : ∀ {j}, (j,s) ∈ pairs log → j = i := fun mem =>
    congrArg Prod.fst (List.inj_on_of_nodup_map once.takers mem paired rfl)
  have apart : i ≠ s := by
    rintro rfl
    rw [ending.2.2] at serves
    contradiction
  constructor
  · refine List.flatMap_congr (fun entry mem => ?_)
    obtain ⟨σ₁,e⟩ := entry
    cases e with
    | relayed j conn data =>
      have which : conn = i ↔ j = s ∧ decide (conn ≠ s) = true := by
        have where' := (inv.relays σ₁ j conn data mem).2
        simp only [decide_eq_true_eq]
        constructor
        · rintro rfl
          refine ⟨where'.elim (fun own => ?_) giver,apart⟩
          subst own
          exact absurd mem notRelay
        · rintro ⟨rfl,other⟩
          exact where'.elim (fun own => absurd own other) taker
      simp only [Event.relayedTo,Event.passed,which]
    | _ => rfl
  · refine List.flatMap_congr (fun entry mem => ?_)
    obtain ⟨σ₁,e⟩ := entry
    cases e with
    | relayed j conn data =>
      have which : conn = s ↔ j = s ∧ decide (conn ≠ s) = false := by
        have where' := (inv.relays σ₁ j conn data mem).2
        simp only [decide_eq_false_iff_not,not_not]
        constructor
        · rintro rfl
          refine ⟨where'.elim Eq.symm (fun given' => ?_),rfl⟩
          have serves' := inv.givers _ given'
          rw [ending.2.2] at serves'
          contradiction
        · exact And.right
      simp only [Event.relayedTo,Event.passed,which]
    | _ => rfl

end runs

end HevFsh.SessionTask
