import HevFsh.Writers

/-! What one session's task may do to another session: only what its command's
lookup has found, and nothing to anyone else. -/
namespace HevFsh.SessionTask
open SearchTree Protocol SessionManager Transitions

def targetType : Command → Option SessionType
  | .login | .connect => some .forward
  | .accept => some .connect
  | .token | .keepAlive => none

def Presented (log : Log Server Event) (σ₀ : Server) (i : Sid) (cmd : Command) (t : Token) : Prop :=
  (∃ σ₁, (σ₁,Event.token i cmd t) ∈ log) ∨ cmd = .login ∧ (σ₀,Event.generated i t) ∈ log

/- At the lookup `j` was registered, with the type the command targets, under the
token of the message. -/
def Matches (log : Log Server Event) (σ₀ : Server) (i j : Sid) (cmd : Command) (type : SessionType)
    (t : Token) : Prop :=
  targetType cmd = some type ∧ j ∈ σ₀.tree.inorder ∧ (σ₀.session j).type = type ∧
    (σ₀.session j).token = t ∧ Presented log σ₀ i cmd t

def LookedUp (log entries : Log Server Event) (cmd : Command) (i j : Sid) : Prop :=
  ∃ σ₀ type t, (σ₀,Event.lookup i cmd type t (some j)) ∈ entries ∧ Matches log σ₀ i j cmd type t

theorem matchesMono {log more : Log Server Event} {σ₀ i j cmd type t}
    (known : Matches log σ₀ i j cmd type t) : Matches (log ++ more) σ₀ i j cmd type t := by
  obtain ⟨target,mem,is,token,presented⟩ := known
  refine ⟨target,mem,is,token,?_⟩
  rcases presented with ⟨σ₁,came⟩ | ⟨login,made⟩
  · exact .inl ⟨σ₁,List.mem_append_left _ came⟩
  · exact .inr ⟨login,List.mem_append_left _ made⟩

structure Lookups (σ : Server) (log : Log Server Event) : Prop where
  found : ∀ σ₀ i cmd type t j, (σ₀,Event.lookup i cmd type t (some j)) ∈ log →
    Matches log σ₀ i j cmd type t
  waiting : ∀ i mt timeout, σ.pc i = .acceptWait mt timeout → ∃ σ₁, (σ₁,Event.token i .accept mt) ∈ log
  target : ∀ i w, (σ.pc i).write = some w → w.target = i ∨
    ∃ σ₀ t, (σ₀,Event.lookup i .connect .forward t (some w.target)) ∈ log

section steps
variable {cfg : Config} {σ σ' : Server} {log : Log Server Event} {i j : Sid} {a : Action}
  {es : List Event}

theorem acceptPresented {mt timeout es₀} (inv : Lookups σ log) (pass : AcceptPass σ i a mt timeout es₀)
    (logged : es₀ ⊆ es) : ∃ σ₁, (σ₁,Event.token i .accept mt) ∈ log ++ es.map (σ,·) := by
  cases pass with
  | first pc => exact ⟨σ,memNext.mpr (.inr ⟨rfl,logged (by simp)⟩)⟩
  | again pc less =>
    obtain ⟨σ₁,mem⟩ := inv.waiting i mt _ pc
    exact ⟨σ₁,memNext.mpr (.inl mem)⟩

theorem loginPresented {ver t es₀} (came : LoginToken σ i a ver t es₀) (logged : es₀ ⊆ es) :
    Presented (log ++ es.map (σ,·)) σ i .login t := by
  have inside : ∀ e ∈ es₀, (σ,e) ∈ log ++ es.map (σ,·) := fun e mem =>
    memNext.mpr (.inr ⟨rfl,logged mem⟩)
  cases came with
  | first pc is type => exact .inr ⟨rfl,inside _ (by simp)⟩
  | zero pc => exact .inr ⟨rfl,inside _ (by simp)⟩
  | client pc nonzero => exact .inl ⟨σ,inside _ (by simp)⟩

theorem lookupsNext (reg : Registry σ) (inv : Lookups σ log) (move : Moves cfg σ a σ' es) :
    Lookups σ' (log ++ es.map (σ,·)) := by
  refine ⟨?_,?_,?_⟩
  · intro σ₀ i cmd type t j mem
    rcases memNext.mp mem with old | ⟨rfl,new⟩
    · exact matchesMono (inv.found σ₀ i cmd type t j old)
    · generalize hit : some j = found at new
      cases movesLogs move new with
      | plain is => contradiction
      | loginLookup came allowed logged =>
        obtain ⟨_,mem,forward,token⟩ := loginFinds (loginTokenPlace reg came).2.1 hit.symm
        exact ⟨rfl,mem,forward,token,loginPresented came logged⟩
      | connectLookup is pc logged =>
        obtain ⟨mem,forward,token⟩ := findSound hit.symm
        exact ⟨rfl,mem,forward,token,.inl ⟨σ₀,memNext.mpr (.inr ⟨rfl,logged⟩)⟩⟩
      | acceptLookup pass logged =>
        obtain ⟨mem,connect,token⟩ := findSound hit.symm
        exact ⟨rfl,mem,connect,token,.inl (acceptPresented inv pass logged)⟩
  · intro i mt timeout pc'
    have arrives := arrivesMoves reg move (j := i)
    rw [pc'] at arrives
    generalize place : Pc.acceptWait mt timeout = p at arrives
    cases arrives with
    | stays away =>
      obtain ⟨σ₁,mem⟩ := inv.waiting i mt timeout place.symm
      exact ⟨σ₁,memNext.mpr (.inl mem)⟩
    | enters is pc next logged => cases next <;> contradiction
    | accept pass logged =>
      cases place
      exact acceptPresented inv pass (by simp [logged])
    | _ => contradiction
  · intro i w writes
    cases writesMoves reg move writes with
    | carried fd old =>
      rcases inv.target i _ old with own | ⟨σ₀,t,mem⟩
      · exact .inl own
      · exact .inr ⟨σ₀,t,memNext.mpr (.inl mem)⟩
    | keepAlive is pc cmdIs => exact .inl rfl
    | login came allowed token logged => exact .inl rfl
    | @connect mt random s is pc found logged =>
      exact .inr ⟨σ,mt,memNext.mpr (.inr ⟨rfl,by simp [logged]⟩)⟩

theorem wlockMoves (reg : Registry σ) (move : Moves cfg σ a σ' es) (mine : a.task = some i) :
    (σ'.session j).wlock = (σ.session j).wlock ∨ ∃ w, (σ.pc i).write = some w ∧ w.target = j := by
  have update : ∀ {k s}, σ'.session = Function.update σ.session k s →
      s.wlock = (σ.session k).wlock → (σ'.session j).wlock = (σ.session j).wlock := by
    intro k s session same
    rw [session]
    by_cases here : j = k
    · subst here; rw [Function.update_self,same]
    · rw [Function.update_of_ne here]
  have unlocked : ∀ {w sent s}, σ.pc i = .writeSend w sent →
      σ'.session = Function.update (unlock σ w.target).session i s →
      s.wlock = ((unlock σ w.target).session i).wlock →
      (σ'.session j).wlock = (σ.session j).wlock ∨ ∃ w, (σ.pc i).write = some w ∧ w.target = j := by
    intro w sent s pc session same
    by_cases here : w.target = j
    · exact .inr ⟨w,by rw [pc]; rfl,here⟩
    · left
      have kept : ((unlock σ w.target).session j).wlock = (σ.session j).wlock := by
        rw [unlockSession,if_neg (Ne.symm here)]
      rw [session]
      by_cases self : j = i
      · subst self; rw [Function.update_self,same,kept]
      · rw [Function.update_of_ne self,kept]
  cases move with
  | opened valid free => contradiction
  | hangsUp ending => exact .inl (update (closeSessionSession σ _ cfg) rfl)
  | refuses pc bad => exact .inl (update (closeSessionSession σ _ cfg) rfl)
  | loginRejected came has unlisted => exact .inl (update rfl rfl)
  | loginFresh came allowed missing => exact .inl (update rfl rfl)
  | @loginEvicts i a ver t es s came allowed found =>
    left
    have other := (loginFinds (loginTokenPlace reg came).2.1 found).1
    simp only [writeMessage,setPcSession,evictSession,setToken,setSessionSession,Function.update_apply]
    split
    · rename_i same; simp [same]
    · split
      · rename_i same; rw [same]
      · rfl
  | acceptOver pass => exact .inl (update (closeSessionSession σ _ cfg) rfl)
  | @acceptMatches i a mt timeout es s pass left' found =>
    left
    have other := (acceptFinds (acceptPassPlace reg pass).2 found).1
    rw [closeSessionSession,Function.update_apply]
    split
    · rename_i same; rw [handOverSession σ cfg other,same]; simp
    · rw [handOverSession σ cfg other]
      split
      · rename_i same; rw [same]
      · split
        · rename_i same; rw [same]
        · rfl
  | @locks i w pc free =>
    cases mine
    by_cases here : w.target = j
    · exact .inr ⟨w,by rw [pc]; rfl,here⟩
    · left; simp [Function.update_of_ne (Ne.symm here)]
  | writeFails pc fail => cases mine; exact unlocked pc (closeSessionSession _ _ _) rfl
  | loginRegisters pc done is => cases mine; exact unlocked pc rfl rfl
  | connectWaits pc done is left unset => cases mine; exact unlocked pc rfl rfl
  | connectRelays pc done is leaves => cases mine; exact unlocked pc rfl rfl
  | @kept i w sent res pc done is =>
    cases mine
    exact unlocked pc (Function.update_eq_self i (unlock σ w.target).session).symm rfl
  | _ => exact .inl rfl

theorem memberKept (reg : Registry σ) (reg' : Registry σ')
    (same : σ'.session j = {σ.session j with wlock := (σ'.session j).wlock}) :
    j ∈ σ'.tree.inorder ↔ j ∈ σ.tree.inorder := by
  rw [reg.member,reg'.member,same]

/- A step of `i` leaves `j` alone, or changes what its own lookup has found, or
takes or gives back the lock of the forwarder that it writes to. -/
def Framed (σ : Server) (log : Log Server Event) (σ' : Server) (es : List Event) (i j : Sid) : Prop :=
  (σ'.session j = σ.session j ∧ (j ∈ σ'.tree.inorder ↔ j ∈ σ.tree.inorder)) ∨
  (∃ cmd, LookedUp (log ++ es.map (σ,·)) (es.map (σ,·)) cmd i j) ∨
  (σ'.session j = {σ.session j with wlock := (σ'.session j).wlock} ∧
    (j ∈ σ'.tree.inorder ↔ j ∈ σ.tree.inorder) ∧ LookedUp log log .connect i j)

theorem framedMoves (reg : Registry σ) (inv : Lookups σ log) (move : Moves cfg σ a σ' es)
    (mine : a.task = some i) (other : j ≠ i) : Framed σ log σ' es i j := by
  have reg' := registryMoves reg move
  have inv' := lookupsNext reg inv move
  have apart : ∀ {k}, a.task = some k → k = i := fun h => Option.some.inj (h.symm.trans mine)
  obtain ⟨s,lock,change,session⟩ := changesMoves reg move j
  cases change with
  | same =>
    have but : σ'.session j = {σ.session j with wlock := (σ'.session j).wlock} := by rw [session]
    have mem := memberKept reg reg' but
    rcases wlockMoves reg move mine (j := j) with same | ⟨w,writes,target⟩
    · exact .inl ⟨by rw [but,same],mem⟩
    · rcases inv.target i w writes with own | ⟨σ₀,t,hit⟩
      · exact absurd (target.symm.trans own) other
      · rw [target] at hit
        exact .inr (.inr ⟨but,mem,σ₀,.forward,t,hit,inv.found _ _ _ _ _ _ hit⟩)
  | opened fresh nobody =>
    rw [nobody] at mine
    contradiction
  | closed ending => exact absurd (apart (closesTask ending)) other
  | handed pass ending => exact absurd (apart (acceptPassTask pass)) other
  | token came => exact absurd (apart (loginTokenTask came)) other
  | forward is pc done after => exact absurd (apart (by rw [is]; rfl)) other
  | connect is pc done after logged => exact absurd (apart (by rw [is]; rfl)) other
  | evicted came allowed found logged =>
    cases apart (loginTokenTask came)
    have hit := List.mem_map_of_mem (f := fun e => (σ,e)) logged
    exact .inr (.inl ⟨.login,σ,_,_,hit,inv'.found _ _ _ _ _ _ (List.mem_append_right _ hit)⟩)
  | spliced pass found logged =>
    cases apart (acceptPassTask pass)
    have hit := List.mem_map_of_mem (f := fun e => (σ,e)) logged
    exact .inr (.inl ⟨.accept,σ,_,_,hit,inv'.found _ _ _ _ _ _ (List.mem_append_right _ hit)⟩)

end steps

section runs
variable {cfg : Config} {ok : Server → Action → Prop} {σ : Server} {log : Log Server Event}

theorem lookupsRun (run : Run (machine cfg) ok σ log) : Lookups σ log := by
  refine runInvariant (P := fun σ log => Lookups σ log) ?_ ?_ run
  · refine ⟨?_,?_,?_⟩ <;> simp [machine,init,Pc.write]
  · intro s log a s' es run _ taken inv
    exact lookupsNext (registryRun run) inv (stepMoves taken)

structure Isolated (cfg : Config) (σ : Server) (log : Log Server Event) : Prop where
  frame : ∀ a σ' es i j, step cfg σ a = some (σ',es) → a.task = some i → j ≠ i →
    Framed σ log σ' es i j
  sent : ∀ σ₁ i j bytes, (σ₁,Event.sent i j bytes) ∈ log → j ≠ i → LookedUp log log .connect i j

theorem sentFound (quiet : ∀ σ a, ok σ a → Undisturbed σ a) (run : Run (machine cfg) ok σ log) :
    ∀ σ₁ i j bytes, (σ₁,Event.sent i j bytes) ∈ log → j ≠ i → LookedUp log log .connect i j := by
  have earlier : ∀ σ₁ i j bytes, (σ₁,Event.sent i j bytes) ∈ log → j ≠ i →
      ∃ σ₀ t, (σ₀,Event.lookup i .connect .forward t (some j)) ∈ log := by
    refine runInvariant (P := fun _ log => ∀ σ₁ i j bytes, (σ₁,Event.sent i j bytes) ∈ log → j ≠ i →
      ∃ σ₀ t, (σ₀,Event.lookup i .connect .forward t (some j)) ∈ log) (by simp) ?_ run
    intro σ log a σ' es run allowed taken inv σ₁ i j bytes mem other
    rcases memNext.mp mem with old | ⟨rfl,new⟩
    · obtain ⟨σ₀,t,hit⟩ := inv σ₁ i j bytes old other
      exact ⟨σ₀,t,memNext.mpr (.inl hit)⟩
    · cases movesLogs (stepMoves taken) new with
      | plain is => contradiction
      | @sent i w sent n conn is pc room valid pc' =>
        have writes : (σ₁.pc i).write = some w := by rw [pc]; rfl
        have safe := (writersSafe quiet run i w writes).2.2
        rw [valid] at safe
        cases safe
        rcases (lookupsRun run).target i w writes with own | ⟨σ₀,t,hit⟩
        · exact absurd own other
        · exact ⟨σ₀,t,memNext.mpr (.inl hit)⟩
  intro σ₁ i j bytes mem other
  obtain ⟨σ₀,t,hit⟩ := earlier σ₁ i j bytes mem other
  exact ⟨σ₀,_,_,hit,(lookupsRun run).found _ _ _ _ _ _ hit⟩

/- In a run that never closes a session under a writer, every session's records,
its place in the registry and its socket are out of reach of all the others,
but for those whose lookup found it. -/
theorem tenantsIsolated (cfg : Config) (σ : Server) (log : Log Server Event)
    (run : Run (machine cfg) Undisturbed σ log) : Isolated cfg σ log where
  frame _ _ _ _ _ taken mine other :=
    framedMoves (registryRun run) (lookupsRun run) (stepMoves taken) mine other
  sent := sentFound (fun _ _ h => h) run

theorem tenantsIsolatedConnect : ∃ σ log, Run (machine (plainConfig 120 none)) Undisturbed σ log ∧
    LookedUp log log .connect 1 0 := by
  obtain ⟨σ,log,run,shows⟩ := replayReaches (machine (plainConfig 120 none)) Undisturbed
    (loginActions 0 5 2 (tokenOf 7) ++ connectActions 1 6 (tokenOf 7) .zero ++ ([.lock 1,.send 1 2] : List Action))
    (fun r => (r.2.map Prod.snd).contains (.sent 1 0 [1,3])) (by decide)
  obtain ⟨⟨σ₁,e⟩,mem,rfl⟩ := List.mem_map.mp (List.contains_iff_mem.mp shows)
  have isolated := tenantsIsolated (plainConfig 120 none) σ log run
  exact ⟨σ,log,run,isolated.sent σ₁ 1 0 [1,3] mem (by decide)⟩

/- The forwarder hangs up under the connector's write, and its number goes to a
client that nobody has looked up. -/
def reusedNumber : List Action :=
  loginActions 0 5 2 (tokenOf 7) ++ connectActions 1 6 (tokenOf 7) .zero ++
    [.lock 1,.recvMessage 0 none .zero,.accept 5,.send 1 18]

def Event.finds : Event → Option Sid
  | .lookup _ _ _ _ found => found
  | _ => none

theorem strangerWrittenTo :
    ¬ ∀ cfg σ log, Run (machine cfg) (fun _ _ => True) σ log → Isolated cfg σ log := by
  intro isolated
  obtain ⟨σ,log,run,shows⟩ := replayReaches (machine (plainConfig 120 none)) (fun _ _ => True)
    reusedNumber
    (fun r => (r.2.map Prod.snd).contains (.sent 1 2 (message 1 .connect (tokenOf 7).bytes)) ∧
      ∀ e ∈ r.2, e.2.finds ≠ some 2) (by decide)
  obtain ⟨written,never⟩ := of_decide_eq_true shows
  obtain ⟨⟨σ₁,e⟩,mem,rfl⟩ := List.mem_map.mp (List.contains_iff_mem.mp written)
  obtain ⟨σ₀,type,t,hit,_⟩ := (isolated _ σ log run).sent σ₁ 1 2 _ mem (by decide)
  exact absurd rfl (never _ hit)

end runs

end HevFsh.SessionTask
