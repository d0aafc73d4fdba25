import HevFsh.ForwardTask

/-! Whose descriptor the forwarder closes and sends on. `base.fd` keeps its number
after the close at `restart`, and the keep-alive task reads it at any time. -/
namespace HevFsh.ForwardTask
open Protocol Transitions ClientForward

structure Table (σ : Process) : Prop where
  valid : ∀ fd c, σ.fds fd = some c → 0 ≤ fd ∧ c < σ.count
  once : ∀ fd fd' c, σ.fds fd = some c → σ.fds fd' = some c → fd = fd'

structure Locked (σ : Process) : Prop where
  main : ∀ p n, σ.main = .writeSend p n → σ.wlock = some .main
  kalive : ∀ fd n, σ.kalive = .writeSend fd n → σ.wlock = some .kalive

section tables
variable {cfg : Config} {σ σ' : Process} {a : Action} {es : List Event}

theorem closeFdSome {fds : Int → Option Nat} {fd g : Int} {c : Nat} (on : closeFd fds fd g = some c) :
    g ≠ fd ∧ fds g = some c := by
  unfold closeFd at on
  by_cases same : g = fd
  · subst same; simp at on
  · exact ⟨same,by simpa [Function.update_of_ne same] using on⟩

theorem closeFdOther {fds : Int → Option Nat} {fd g : Int} (other : g ≠ fd) :
    closeFd fds fd g = fds g := Function.update_of_ne other _ _

theorem tableClose (table : Table σ) {fd : Int} (fds : σ'.fds = closeFd σ.fds fd)
    (count : σ'.count = σ.count) : Table σ' := by
  refine ⟨fun g c on => ?_,fun g g' c on on' => ?_⟩
  · rw [fds] at on
    rw [count]
    exact table.valid g c (closeFdSome on).2
  · rw [fds] at on on'
    exact table.once g g' c (closeFdSome on).2 (closeFdSome on').2

theorem tableOpen (table : Table σ) {fd : Int} (valid : 0 ≤ fd)
    (fds : σ'.fds = Function.update σ.fds fd (some σ.count)) (count : σ'.count = σ.count + 1) :
    Table σ' := by
  have old : ∀ g c, g ≠ fd → σ'.fds g = some c → σ.fds g = some c := by
    intro g c other on
    rwa [fds,Function.update_of_ne other] at on
  have new : ∀ c, σ'.fds fd = some c → c = σ.count := by
    intro c on
    rw [fds,Function.update_self] at on
    exact (Option.some.inj on).symm
  refine ⟨fun g c on => ?_,fun g g' c on on' => ?_⟩
  · by_cases same : g = fd
    · subst same
      exact ⟨valid,by rw [count,new c on]; exact Nat.lt_succ_self _⟩
    · obtain ⟨low,known⟩ := table.valid g c (old g c same on)
      exact ⟨low,by omega⟩
  · -- the new connection is none of the old ones
    have fresh : ∀ h, h ≠ fd → σ'.fds h = some c → c < σ.count :=
      fun h other on => (table.valid h c (old h c other on)).2
    by_cases same : g = fd
    · by_cases same' : g' = fd
      · exact same.trans same'.symm
      · have late := new c (same ▸ on)
        have early := fresh g' same' on'
        omega
    · by_cases same' : g' = fd
      · have late := new c (same' ▸ on')
        have early := fresh g same on
        omega
      · exact table.once g g' c (old g c same on) (old g' c same' on')

theorem tableMoves (table : Table σ) (move : Moves cfg σ a σ' es) : Table σ' := by
  cases move with
  | restarts way =>
    cases way with
    | @connectFails fd res main fail =>
      have closed : Table {σ with fds := closeFd σ.fds fd} := tableClose table rfl rfl
      exact tableClose closed rfl rfl
    | _ => exact tableClose table rfl rfl
  | socket main valid free => exact tableOpen table valid rfl rfl
  | opens valid free => exact tableOpen table valid rfl rfl
  | closes held => exact tableClose table rfl rfl
  | _ => exact ⟨table.valid,table.once⟩

theorem lockedApart (inv : Locked σ) {p n fd m} (main : σ.main = .writeSend p n) :
    σ.kalive ≠ .writeSend fd m := by
  intro kalive
  have mine := inv.main p n main
  rw [inv.kalive fd m kalive] at mine
  contradiction

theorem lockedMoves (inv : Locked σ) (move : Moves cfg σ a σ' es) : Locked σ' := by
  cases move with
  | restarts way =>
    refine ⟨fun p n at' => by simp [restart] at at',fun fd n at' => ?_⟩
    cases way with
    | writeFails main fail => exact absurd at' (lockedApart inv main)
    | _ => exact inv.kalive fd n at'
  | socket main valid free => exact ⟨fun p n at' => by simp at at',inv.kalive⟩
  | connects main done => exact ⟨fun p n at' => by simp at at',inv.kalive⟩
  | locks main free =>
    refine ⟨fun p n _ => rfl,fun fd n at' => ?_⟩
    have theirs := inv.kalive fd n at'
    rw [free] at theirs
    contradiction
  | keepLocks kalive free =>
    refine ⟨fun p n at' => ?_,fun fd n _ => rfl⟩
    have mine := inv.main p n at'
    rw [free] at mine
    contradiction
  | sends main positive room valid => exact ⟨fun p n _ => inv.main _ _ main,inv.kalive⟩
  | keepSends kalive valid => exact ⟨inv.main,fun fd n _ => inv.kalive _ _ kalive⟩
  | headerWritten main done configured =>
    exact ⟨fun p n at' => by simp at at',fun fd n at' => absurd at' (lockedApart inv main)⟩
  | loginWritten main done last =>
    exact ⟨fun p n at' => by simp at at',fun fd n at' => absurd at' (lockedApart inv main)⟩
  | keepReturns kalive =>
    exact ⟨fun p n at' => absurd kalive (lockedApart inv at'),fun fd n at' => by simp at at'⟩
  | reads main => exact ⟨fun p n at' => by simp at at',inv.kalive⟩
  | wakes kalive => exact ⟨inv.main,fun fd n at' => by simp at at'⟩
  | opens valid free => exact ⟨inv.main,inv.kalive⟩
  | closes held => exact ⟨inv.main,inv.kalive⟩

end tables

section runs
variable {cfg : Config} {ok : Process → Action → Prop} {σ : Process} {log : Log Process Event}

theorem tableRun (run : Run (machine cfg) ok σ log) : Table σ := by
  refine runInvariant (P := fun σ _ => Table σ) ?_ ?_ run
  · exact ⟨fun fd c on => by simp [machine,init] at on,fun fd fd' c on => by simp [machine,init] at on⟩
  · intro s log a s' es _ _ taken inv
    exact tableMoves inv (stepMoves taken)

theorem lockedRun (run : Run (machine cfg) ok σ log) : Locked σ := by
  refine runInvariant (P := fun σ _ => Locked σ) ?_ ?_ run
  · exact ⟨fun p n at' => by simp [machine,init] at at',fun fd n at' => by simp [machine,init] at at'⟩
  · intro s log a s' es _ _ taken inv
    exact lockedMoves inv (stepMoves taken)

end runs

def track (own : Option (Nat × Int)) : Event → Option (Nat × Int)
  | .connected conn fd => conn.map (·,fd)
  | .closed _ (some c) => if own.map Prod.fst = some c then none else own
  | _ => own

def current (log : Log Process Event) : Option (Nat × Int) := log.foldl (fun own e => track own e.2) none

def Owns (log : Log Process Event) (fd : Int) : Prop := (current log).map Prod.snd = some fd

instance (log : Log Process Event) (fd : Int) : Decidable (Owns log fd) := by
  unfold Owns; infer_instance

structure OwnsDescriptor (σ : Process) (log : Log Process Event) : Prop where
  restart : ∀ before σ₁ fd after, log = before ++ (σ₁,Event.restart fd) :: after →
    fd = -1 ∨ Owns before fd
  kalive : ∀ fd sent, σ.kalive = .writeSend fd sent → fd = -1 ∨ Owns log fd

def Main.connected : Main → Bool
  | .writeLock _ | .writeSend _ _ | .reading _ => true
  | _ => false

def Kalive.quiet : Kalive → Bool
  | .writeSend fd _ => fd = -1
  | _ => true

def Action.failsConnect : Action → Bool
  | .noSocket => true
  | .connectReturn res => res < 0
  | _ => false

def endsReading (σ : Process) : Action → Bool
  | .receive b => match σ.main with
      | .reading r => (feed r b).reading = .stopped
      | _ => false
  | .recvFails => true
  | _ => false

/- No connect fails once one has succeeded, the keep-alive task starts no send between
`restart` and the next connection, and is in none when the connection ends. -/
structure Settled (σ : Process) (a : Action) : Prop where
  connect : a.failsConnect = true → σ.fd = -1
  start : a = .lock .kalive → σ.main.connected = true ∨ σ.fd = -1
  leave : endsReading σ a = true → σ.kalive.quiet = true

instance (σ : Process) (a : Action) : Decidable (Settled σ a) :=
  decidable_of_iff ((a.failsConnect = true → σ.fd = -1) ∧
    (a = .lock .kalive → σ.main.connected = true ∨ σ.fd = -1) ∧
    (endsReading σ a = true → σ.kalive.quiet = true))
    ⟨fun h => ⟨h.1,h.2.1,h.2.2⟩,fun h => ⟨h.connect,h.start,h.leave⟩⟩

structure Keeps (σ : Process) (log : Log Process Event) : Prop where
  held : ∀ fd, σ.others fd = true → σ.fds fd ≠ none
  opening : ∀ fd, σ.main = .connecting fd → σ.fds fd ≠ none ∧ σ.others fd = false
  own : σ.main.connected = true → ∃ c, σ.fds σ.fd = some c ∧ current log = some (c,σ.fd) ∧
    σ.others σ.fd = false
  kalive : ∀ fd n, σ.kalive = .writeSend fd n → fd = -1 ∨ (fd = σ.fd ∧ σ.main.connected = true)

section keeps
variable {cfg : Config} {σ σ' : Process} {log : Log Process Event} {a : Action} {es : List Event}

theorem currentNext : current (log ++ es.map (σ,·)) = es.foldl track (current log) := by
  simp [current,List.foldl_map]

/- What the state must be like for the close at `restart` to be harmless. -/
structure Leaves (σ : Process) : Prop where
  held : ∀ fd, σ.others fd = true → σ.fds fd ≠ none
  mine : σ.others σ.fd = false
  quiet : σ.kalive.quiet = true

theorem keepsRestart (leaves : Leaves σ) : Keeps (restart σ).1 log := by
  refine ⟨fun fd theirs => ?_,fun fd at' => by simp [restart] at at',fun at' => by
    simp [restart,Main.connected] at at',fun fd n at' => ?_⟩
  · have other : fd ≠ σ.fd := by
      rintro rfl
      simp [restart,leaves.mine] at theirs
    simp only [restart,closeFdOther other]
    exact leaves.held fd theirs
  · have kalive : σ.kalive = .writeSend fd n := at'
    have quiet := leaves.quiet
    simp only [kalive,Kalive.quiet,decide_eq_true_eq] at quiet
    exact .inl quiet

theorem quietApart (inv : Keeps σ log) (apart : σ.main.connected = false) : σ.kalive.quiet = true := by
  cases at' : σ.kalive with
  | writeSend fd n =>
    rcases inv.kalive fd n at' with unset | ⟨_,on⟩
    · simp [Kalive.quiet,unset]
    · simp [apart] at on
  | _ => rfl

theorem unsetOthers (table : Table σ) (inv : Keeps σ log) (unset : σ.fd = -1) :
    σ.others σ.fd = false := by
  refine Bool.eq_false_iff.mpr (fun theirs => ?_)
  obtain ⟨c,on⟩ := Option.ne_none_iff_exists'.mp (inv.held σ.fd theirs)
  have valid := (table.valid σ.fd c on).1
  omega

/- The way to `restart` under the condition: either nothing has ever been connected, or
the connection is still the forwarder's own. -/
theorem restartsSettled {σ₁} (table : Table σ) (locked : Locked σ) (inv : Keeps σ log)
    (settled : Settled σ a) (way : Restarts cfg σ a σ₁ es) :
    Leaves σ₁ ∧ (σ₁.fd = -1 ∨ (es = [] ∧ σ.main.connected = true ∧ σ₁.fd = σ.fd)) := by
  have connects : σ.main.connected = true → σ.others σ.fd = false := by
    intro on
    obtain ⟨c,_,_,mine⟩ := inv.own on
    exact mine
  cases way with
  | noSocket main =>
    have apart : σ.main.connected = false := by rw [main]; rfl
    have unset : σ.fd = -1 := settled.connect rfl
    exact ⟨⟨inv.held,unsetOthers table inv unset,quietApart inv apart⟩,.inl unset⟩
  | @connectFails fd res main fail =>
    have unset : σ.fd = -1 := settled.connect (decide_eq_true fail)
    have apart : σ.main.connected = false := by rw [main]; rfl
    have mine := unsetOthers table inv unset
    have quiet := quietApart inv apart
    refine ⟨⟨fun g theirs => ?_,mine,quiet⟩,.inl unset⟩
    have other : g ≠ fd := by
      rintro rfl
      simp [(inv.opening g main).2] at theirs
    simp only [closeFdOther other]
    exact inv.held g theirs
  | writeFails main fail =>
    have on : σ.main.connected = true := by rw [main]; rfl
    refine ⟨⟨inv.held,connects on,?_⟩,.inr ⟨rfl,on,rfl⟩⟩
    -- the main task holds the lock
    cases at' : σ.kalive with
    | writeSend fd n => exact absurd at' (lockedApart locked main)
    | _ => rfl
  | @stops r b main ending =>
    have on : σ.main.connected = true := by rw [main]; rfl
    have ends : endsReading σ (.receive b) = true := by
      unfold endsReading
      simp only [main]
      exact decide_eq_true ending
    have quiet := settled.leave ends
    exact ⟨⟨inv.held,connects on,quiet⟩,.inr ⟨rfl,on,rfl⟩⟩
  | recvFails main =>
    have on : σ.main.connected = true := by rw [main]; rfl
    exact ⟨⟨inv.held,connects on,settled.leave rfl⟩,.inr ⟨rfl,on,rfl⟩⟩

theorem keepsSame (inv : Keeps σ log) (fds : σ'.fds = σ.fds) (others : σ'.others = σ.others)
    (fd : σ'.fd = σ.fd) (opening : ∀ fd, σ'.main = .connecting fd → σ.main = .connecting fd)
    (connected : σ'.main.connected = σ.main.connected) (own : current log = es.foldl track (current log))
    (kalive : ∀ g n, σ'.kalive = .writeSend g n → g = -1 ∨ (g = σ.fd ∧ σ.main.connected = true)) :
    Keeps σ' (log ++ es.map (σ,·)) := by
  refine ⟨?_,?_,?_,?_⟩
  · rw [fds,others]
    exact inv.held
  · rw [fds,others]
    exact fun g at' => inv.opening g (opening g at')
  · rw [connected,fds,others,fd,currentNext,← own]
    exact inv.own
  · rw [connected,fd]
    exact kalive

theorem keepsOpens {fd} (inv : Keeps σ log) (free : σ.fds fd = none) :
    Keeps {σ with
      fds := Function.update σ.fds fd (some σ.count)
      others := Function.update σ.others fd true
      count := σ.count + 1} (log ++ [(σ,.opened σ.count fd)]) := by
  have apart : ∀ g, σ.fds g ≠ none → g ≠ fd := by
    rintro g on rfl
    exact on free
  refine ⟨fun g theirs => ?_,fun g at' => ?_,fun on => ?_,inv.kalive⟩
  · by_cases same : g = fd
    · simp [same]
    · simp only [Function.update_of_ne same] at theirs ⊢
      exact inv.held g theirs
  · obtain ⟨on,mine⟩ := inv.opening g at'
    simpa [Function.update_of_ne (apart g on)] using ⟨on,mine⟩
  · obtain ⟨c,open',known,mine⟩ := inv.own on
    have other := apart σ.fd (by simp [open'])
    refine ⟨c,by simpa [Function.update_of_ne other] using open',?_,?_⟩
    · simpa [current,track] using known
    · simpa [Function.update_of_ne other] using mine

theorem keepsCloses {fd} (table : Table σ) (inv : Keeps σ log) (held : σ.others fd = true) :
    Keeps {σ with fds := closeFd σ.fds fd, others := Function.update σ.others fd false}
      (log ++ [(σ,.closed fd (σ.fds fd))]) := by
  have apart : ∀ g, σ.others g = false → g ≠ fd := by
    rintro g mine rfl
    simp [held] at mine
  refine ⟨fun g theirs => ?_,fun g at' => ?_,fun on => ?_,inv.kalive⟩
  · have other : g ≠ fd := by
      rintro rfl
      simp at theirs
    simp only [closeFdOther other]
    exact inv.held g (by simpa [Function.update_of_ne other] using theirs)
  · obtain ⟨on,mine⟩ := inv.opening g at'
    have other := apart g mine
    exact ⟨by simpa only [closeFdOther other] using on,by simpa [Function.update_of_ne other] using mine⟩
  · obtain ⟨c,open',known,mine⟩ := inv.own on
    have other := apart σ.fd mine
    obtain ⟨d,theirs⟩ := Option.ne_none_iff_exists'.mp (inv.held fd held)
    have distinct : c ≠ d := by
      rintro rfl
      exact other (table.once _ _ _ open' theirs)
    refine ⟨c,by simpa only [closeFdOther other] using open',?_,?_⟩
    · have next : current (log ++ [(σ,.closed fd (σ.fds fd))]) =
          track (current log) (.closed fd (σ.fds fd)) := by simp [current]
      rw [next,theirs,known]
      simp [track,distinct]
    · simpa [Function.update_of_ne other] using mine

theorem keepsNext (table : Table σ) (locked : Locked σ) (inv : Keeps σ log) (settled : Settled σ a)
    (move : Moves cfg σ a σ' es) : Keeps σ' (log ++ es.map (σ,·)) := by
  -- without a connection, what the keep-alive task does is done on -1
  have unset : σ.main.connected = false → ∀ g n, σ.kalive = .writeSend g n → g = -1 := by
    intro apart g n at'
    have quiet := quietApart inv apart
    simpa [at',Kalive.quiet] using quiet
  cases move with
  | restarts way => exact keepsRestart (restartsSettled table locked inv settled way).1
  | @socket fd main valid free =>
    have apart : σ.main.connected = false := by rw [main]; rfl
    refine ⟨fun g theirs => ?_,fun g at' => ?_,by simp [Main.connected],
      fun g n at' => .inl (unset apart g n at')⟩
    · by_cases same : g = fd
      · simp [same]
      · simpa [Function.update_of_ne same] using inv.held g theirs
    · cases at'
      refine ⟨by simp,Bool.eq_false_iff.mpr (fun theirs => ?_)⟩
      exact inv.held fd theirs free
  | @connects fd res main done =>
    have apart : σ.main.connected = false := by rw [main]; rfl
    obtain ⟨on,mine⟩ := inv.opening fd main
    obtain ⟨c,on⟩ := Option.ne_none_iff_exists'.mp on
    refine ⟨inv.held,by simp,fun _ => ⟨c,on,?_,mine⟩,fun g n at' => .inl (unset apart g n at')⟩
    rw [currentNext]
    simp [track,on]
  | locks main free => exact keepsSame inv rfl rfl rfl (by simp) (by rw [main]; rfl) rfl inv.kalive
  | keepLocks kalive free =>
    refine keepsSame inv rfl rfl rfl (fun g at' => at') rfl rfl (fun g n at' => ?_)
    cases at'
    exact (settled.start rfl).symm.imp id (fun on => ⟨rfl,on⟩)
  | sends main positive room valid =>
    exact keepsSame inv rfl rfl rfl (by simp) (by rw [main]; rfl) rfl inv.kalive
  | keepSends kalive valid =>
    refine keepsSame inv rfl rfl rfl (fun g at' => at') rfl rfl (fun g n at' => ?_)
    cases at'
    exact inv.kalive _ _ kalive
  | headerWritten main done configured =>
    exact keepsSame inv rfl rfl rfl (by simp) (by rw [main]; rfl) rfl inv.kalive
  | loginWritten main done last =>
    exact keepsSame inv rfl rfl rfl (by simp) (by rw [main]; rfl) rfl inv.kalive
  | keepReturns kalive => exact keepsSame inv rfl rfl rfl (fun g at' => at') rfl rfl (by simp)
  | reads main => exact keepsSame inv rfl rfl rfl (by simp) (by rw [main]; rfl) rfl inv.kalive
  | wakes kalive => exact keepsSame inv rfl rfl rfl (fun g at' => at') rfl rfl (by simp)
  | opens valid free => exact keepsOpens inv free
  | closes held => exact keepsCloses table inv held

theorem movesRestart {fd es₁ es₂} (move : Moves cfg σ a σ' (es₁ ++ .restart fd :: es₂)) :
    ∃ σ₁, Restarts cfg σ a σ₁ es₁ ∧ fd = σ₁.fd := by
  generalize shape : es₁ ++ .restart fd :: es₂ = es at move
  have mem : .restart fd ∈ es := by simp [← shape]
  cases move with
  | @restarts a σ₁ es way =>
    have plain : ∀ g, .restart g ∉ es := by cases way <;> simp
    have late : Event.restart fd ∉ [Event.closed σ₁.fd (σ₁.fds σ₁.fd)] := by simp
    rcases List.append_eq_append_iff.mp shape with ⟨gap,whole,rest⟩ | ⟨gap,whole,rest⟩
    · cases gap with
      | nil =>
        rw [List.append_nil] at whole
        cases rest
        exact ⟨σ₁,whole ▸ way,rfl⟩
      | cons head gap =>
        obtain ⟨rfl,_⟩ := List.cons.inj rest
        exact absurd (by simp [whole]) (plain fd)
    · cases gap with
      | nil =>
        rw [List.append_nil] at whole
        cases rest
        exact ⟨σ₁,whole ▸ way,rfl⟩
      | cons head gap =>
        obtain ⟨_,tail⟩ := List.cons.inj rest
        exact absurd (by simp [tail]) late
  | _ => simp at mem

end keeps

theorem keepsRun {cfg : Config} {σ log} (run : Run (machine cfg) Settled σ log) : Keeps σ log := by
  refine runInvariant (P := fun σ log => Keeps σ log) ?_ ?_ run
  · refine ⟨?_,?_,?_,?_⟩ <;> simp [machine,init,Main.connected]
  · intro s log a s' es run settled taken inv
    exact keepsNext (tableRun run) (lockedRun run) inv settled (stepMoves taken)

theorem descriptorOwned (cfg : Config) (σ : Process) (log : Log Process Event)
    (run : Run (machine cfg) Settled σ log) : OwnsDescriptor σ log := by
  refine ⟨fun before σ₁ fd after split => ?_,fun fd sent at' => ?_⟩
  · obtain ⟨pre,a,σ₂,es₁,es₂,earlier,settled,taken,left,_⟩ := runAt run split
    obtain ⟨σ₃,way,rfl⟩ := movesRestart (stepMoves taken)
    have keeps := keepsRun earlier
    rcases (restartsSettled (tableRun earlier) (lockedRun earlier) keeps settled way).2 with
      unset | ⟨rfl,on,same⟩
    · exact .inl unset
    · obtain ⟨c,_,known,_⟩ := keeps.own on
      right
      rw [left,Owns,List.map_nil,List.append_nil,known,same]
      rfl
  · have keeps := keepsRun run
    rcases keeps.kalive fd sent at' with unset | ⟨same,on⟩
    · exact .inl unset
    · obtain ⟨c,_,known,_⟩ := keeps.own on
      right
      rw [Owns,known,same]
      rfl

def connectTo (fd : Int) : List Action := [.socket fd,.connectReturn 0]

def writePiece (size : Nat) : List Action := [.lock .main,.send .main size,.sendReturn .main size]

theorem descriptorOwnedClosed : ∃ σ log, Run (machine ⟨none⟩) Settled σ log ∧
    ∃ before σ₁ after, log = before ++ (σ₁,Event.restart 5) :: after ∧ Owns before 5 := by
  obtain ⟨σ,log,run,shows⟩ := replayReaches (machine ⟨none⟩) Settled
    (connectTo 5 ++ writePiece 2 ++ ([.opens 6,.wake,.lock .kalive,.send .kalive 2,
      .sendReturn .kalive 2,.closes 6,.recvFails] : List Action))
    (fun r => (r.2.map Prod.snd).contains (.restart 5)) (by decide)
  obtain ⟨⟨σ₁,e⟩,mem,rfl⟩ := List.mem_map.mp (List.contains_iff_mem.mp shows)
  obtain ⟨before,after,split⟩ := List.append_of_mem mem
  have owned := (descriptorOwned ⟨none⟩ σ log run).restart before σ₁ 5 after split
  exact ⟨σ,log,run,before,σ₁,after,split,owned.resolve_left (by decide)⟩

/- The connection ends, another task gets the number, and the next connect fails:
`restart` closes the other task's descriptor. -/
theorem descriptorStale :
    ¬ ∀ cfg σ log, Run (machine cfg) (fun _ _ => True) σ log → OwnsDescriptor σ log := by
  intro owns
  obtain ⟨σ,log,run,shows⟩ := replayReaches (machine ⟨none⟩) (fun _ _ => True)
    (connectTo 5 ++ writePiece 2 ++ ([.recvFails,.opens 5,.noSocket] : List Action))
    (fun r => r.2[6]?.map Prod.snd = some (Event.restart 5) ∧ ¬ Owns (r.2.take 6) 5) (by decide)
  obtain ⟨last,lost⟩ := of_decide_eq_true shows
  obtain ⟨σ₁,split⟩ := cutAt last
  rcases (owns _ σ log run).restart _ σ₁ 5 _ split with unset | owned
  · contradiction
  · exact lost owned

end HevFsh.ForwardTask
