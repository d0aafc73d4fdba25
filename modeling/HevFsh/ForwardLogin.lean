import HevFsh.ForwardDescriptor

/-! The login on the wire. Header and token go out in two critical sections of the
lock that the keep-alive task takes as well. -/
namespace HevFsh.ForwardTask
open Protocol Transitions ClientForward

def Event.onto (conn : Nat) : Event → Bytes
  | .sent _ _ c bytes => if c = conn then bytes else []
  | .kept c bytes => if c = conn then bytes else []
  | _ => []

def onto (conn : Nat) (log : Log Process Event) : Bytes := log.flatMap (fun e => e.2.onto conn)

def HeaderSent (log before : Log Process Event) (σ₁ : Process) (conn : Nat)
    (after : Log Process Event) : Prop :=
  ∃ start bytes, log = before ++ (σ₁,.sent .header start conn bytes) :: after ∧
    start + bytes.length = 2

/- `follows` is what the connection has carried since its header: the token so far, so
that a token read there is the configured one; all of it once the login is written. -/
structure Followed (σ : Process) (t : Token) (conn : Nat) (follows : Bytes) : Prop where
  initial : follows.take 16 <+: t.bytes
  reads : ∀ mt : Token, mt.bytes <+: follows → mt = t
  complete : ∀ r, σ.fds σ.fd = some conn → σ.main = .reading r → t.bytes <+: follows

def Contiguous (cfg : Config) (σ : Process) (log : Log Process Event) : Prop :=
  ∀ t, cfg.token = some (some t) → ∀ before σ₁ conn after, HeaderSent log before σ₁ conn after →
    Followed σ t conn (onto conn after)

def SendsWhole (cfg : Config) (σ : Process) : Action → Prop
  | .sendReturn .main res => match σ.main with
      | .writeSend p sent => 0 < res → sent = (p.bytes cfg).length
      | _ => True
  | _ => True

instance (cfg : Config) (σ : Process) (a : Action) : Decidable (SendsWhole cfg σ a) := by
  unfold SendsWhole
  split <;> try infer_instance
  split <;> infer_instance

def Unsplit (cfg : Config) (σ : Process) (a : Action) : Prop :=
  SendsWhole cfg σ a ∧ (a = .lock .kalive → σ.main ≠ .writeLock .token)

instance (cfg : Config) (σ : Process) (a : Action) : Decidable (Unsplit cfg σ a) := by
  unfold Unsplit; infer_instance

def Alone (σ : Process) : Prop :=
  σ.main = .writeLock .token → ∀ fd n, σ.kalive ≠ .writeSend fd n

def LoginPlace (t : Token) (follows : Bytes) : Main → Prop
  | .writeSend .header n => n = 2 ∧ follows = []
  | .writeLock .token => follows = []
  | .writeSend .token n => follows = t.bytes.take n
  | .reading _ => 16 ≤ follows.length
  | _ => False

structure HeaderAt (σ : Process) (t : Token) (conn : Nat) (follows : Bytes) : Prop where
  old : conn < σ.count
  place : ∀ fd, σ.fds fd = some conn → fd = σ.fd ∧ LoginPlace t follows σ.main
  initial : follows.take 16 <+: t.bytes

section steps
variable {cfg : Config} {σ σ' : Process} {t : Token} {conn : Nat} {follows : Bytes} {a : Action}
  {es : List Event}

theorem aloneMoves (locked : Locked σ) (inv : Alone σ) (unsplit : Unsplit cfg σ a)
    (move : Moves cfg σ a σ' es) : Alone σ' := by
  intro at' fd n sends
  cases move with
  | restarts way => simp [restart] at at'
  | headerWritten main done configured => exact lockedApart locked main sends
  | keepLocks kalive free => exact unsplit.2 rfl at'
  | keepSends kalive valid => exact inv at' _ _ kalive
  | opens valid free => exact inv at' fd n sends
  | closes held => exact inv at' fd n sends
  | _ => simp at at' sends

theorem headerSame (inv : HeaderAt σ t conn follows) (count : σ.count ≤ σ'.count)
    (fds : ∀ fd, σ'.fds fd = some conn → σ.fds fd = some conn) (fd : σ'.fd = σ.fd)
    (place : LoginPlace t follows σ.main → LoginPlace t follows σ'.main) :
    HeaderAt σ' t conn (follows ++ []) := by
  rw [List.append_nil]
  refine ⟨Nat.lt_of_lt_of_le inv.old count,fun g on => ?_,inv.initial⟩
  obtain ⟨same,stands⟩ := inv.place g (fds g on)
  exact ⟨same.trans fd.symm,place stands⟩

theorem headerGone (inv : HeaderAt σ t conn follows) (count : σ.count ≤ σ'.count)
    (gone : ∀ fd, σ'.fds fd ≠ some conn) : HeaderAt σ' t conn (follows ++ []) := by
  rw [List.append_nil]
  exact ⟨Nat.lt_of_lt_of_le inv.old count,fun g on => absurd on (gone g),inv.initial⟩

theorem openedOld {fd g : Int} (old : conn < σ.count)
    (on : Function.update σ.fds fd (some σ.count) g = some conn) : σ.fds g = some conn := by
  by_cases same : g = fd
  · rw [same,Function.update_self] at on
    exact absurd (Option.some.inj on) (Nat.ne_of_gt old)
  · rwa [Function.update_of_ne same] at on

theorem headerRestarts {σ₁ es₀} (inv : HeaderAt σ t conn follows) (way : Restarts cfg σ a σ₁ es₀) :
    HeaderAt (restart σ₁).1 t conn (follows ++ (es₀ ++ (restart σ₁).2).flatMap (Event.onto conn)) := by
  have quiet : (es₀ ++ (restart σ₁).2).flatMap (Event.onto conn) = [] := by cases way <;> rfl
  have before : σ₁.fd = σ.fd ∧ σ.count ≤ σ₁.count ∧
      ∀ g, σ₁.fds g = some conn → σ.fds g = some conn := by
    cases way with
    | connectFails main fail => exact ⟨rfl,Nat.le_refl _,fun g on => (closeFdSome on).2⟩
    | _ => exact ⟨rfl,Nat.le_refl _,fun g on => on⟩
  obtain ⟨fd,count,old⟩ := before
  rw [quiet]
  refine headerGone inv count (fun g on => ?_)
  obtain ⟨other,on⟩ := closeFdSome on
  exact other ((inv.place g (old g on)).1.trans fd.symm)

theorem headerSends {p sent n c} (configured : cfg.token = some (some t))
    (inv : HeaderAt σ t conn follows) (main : σ.main = .writeSend p sent) (positive : 0 < n)
    (room : sent + n ≤ (p.bytes cfg).length) (valid : σ.fds σ.fd = some c) :
    HeaderAt {σ with main := .writeSend p (sent + n)} t conn
      (follows ++ if c = conn then ((p.bytes cfg).drop sent).take n else []) := by
  split
  · rename_i same
    subst same
    obtain ⟨_,stands⟩ := inv.place σ.fd valid
    rw [main] at stands
    cases p with
    | header =>
      have size : (Piece.header.bytes cfg).length = 2 := rfl
      have full : sent = 2 := stands.1
      omega
    | token =>
      have bytes : Piece.token.bytes cfg = t.bytes := by simp [Piece.bytes,configured]
      have grown : follows ++ (t.bytes.drop sent).take n = t.bytes.take (sent + n) := by
        rw [List.take_add,stands]
      rw [bytes,grown]
      refine ⟨inv.old,fun g on => ⟨(inv.place g on).1,rfl⟩,?_⟩
      exact (List.take_prefix _ _).trans (List.take_prefix _ _)
  · rename_i other
    refine headerGone inv (Nat.le_refl _) (fun g on => ?_)
    rw [(inv.place g on).1,valid] at on
    exact other (Option.some.inj on)

theorem headerKept {fd sent n c} (locked : Locked σ) (alone : Alone σ)
    (inv : HeaderAt σ t conn follows) (kalive : σ.kalive = .writeSend fd sent)
    (valid : σ.fds fd = some c) :
    HeaderAt {σ with kalive := .writeSend fd (sent + n)} t conn
      (follows ++ if c = conn then (keepAlive.drop sent).take n else []) := by
  split
  · rename_i same
    subst same
    obtain ⟨_,stands⟩ := inv.place fd valid
    cases main : σ.main with
    | reading r =>
      rw [main] at stands
      have long : 16 ≤ follows.length := stands
      refine ⟨inv.old,fun g on => ⟨(inv.place g on).1,?_⟩,?_⟩
      · simp only [LoginPlace,List.length_append]
        omega
      · rw [List.take_append_of_le_length long]
        exact inv.initial
    | writeSend p m => exact absurd kalive (lockedApart locked main)
    | writeLock p =>
      cases p with
      | token => exact absurd kalive (alone main fd sent)
      | header => simp [main,LoginPlace] at stands
    | _ => simp [main,LoginPlace] at stands
  · exact headerSame inv (Nat.le_refl _) (fun g on => on) rfl id

theorem headerMoves (locked : Locked σ) (alone : Alone σ) (configured : cfg.token = some (some t))
    (whole : SendsWhole cfg σ a) (inv : HeaderAt σ t conn follows) (move : Moves cfg σ a σ' es) :
    HeaderAt σ' t conn (follows ++ es.flatMap (Event.onto conn)) := by
  have same : σ'.fds = σ.fds → σ'.fd = σ.fd → σ'.count = σ.count →
      (LoginPlace t follows σ.main → LoginPlace t follows σ'.main) →
      HeaderAt σ' t conn (follows ++ []) := fun fds fd count =>
    headerSame inv (Nat.le_of_eq count.symm) (fun g on => by rwa [fds] at on) fd
  cases move with
  | restarts way => exact headerRestarts inv way
  | socket main valid free =>
    refine headerSame inv (Nat.le_succ _) (fun g on => openedOld inv.old on) rfl ?_
    simp [main,LoginPlace]
  | connects main done =>
    refine headerGone inv (Nat.le_refl _) (fun g on => ?_)
    simpa [main,LoginPlace] using (inv.place g on).2
  | @locks p main free =>
    refine same rfl rfl rfl ?_
    cases p <;> simp [main,LoginPlace]
  | keepLocks kalive free => exact same rfl rfl rfl id
  | sends main positive room valid =>
    simpa [Event.onto] using headerSends configured inv main positive room valid
  | @keepSends fd sent n c kalive valid =>
    simpa [Event.onto] using headerKept locked alone inv kalive valid (n := n)
  | headerWritten main done _ =>
    refine same rfl rfl rfl ?_
    rw [main]
    exact fun stands => stands.2
  | @loginWritten p sent res main done last =>
    refine same rfl rfl rfl ?_
    rcases last with rfl | absent
    · simp only [SendsWhole,main] at whole
      have size : sent = 16 := (whole done).trans (by simp [Piece.bytes,configured,t.size])
      rw [main]
      intro stands
      have shape : follows = t.bytes.take sent := stands
      simp [LoginPlace,shape,size,t.size]
    · rw [configured] at absent
      contradiction
  | keepReturns kalive => exact same rfl rfl rfl id
  | reads main =>
    refine same rfl rfl rfl ?_
    simp [main,LoginPlace]
  | wakes kalive => exact same rfl rfl rfl id
  | opens valid free =>
    exact headerSame inv (Nat.le_succ _) (fun g on => openedOld inv.old on) rfl id
  | closes held =>
    exact headerSame inv (Nat.le_refl _) (fun g on => (closeFdSome on).2) rfl id

theorem headerStarts {start c bytes es₁ es₂} (table : Table σ)
    (move : Moves cfg σ a σ' (es₁ ++ .sent .header start c bytes :: es₂))
    (whole : start + bytes.length = 2) : es₂ = [] ∧ HeaderAt σ' t c [] := by
  generalize shape : es₁ ++ .sent .header start c bytes :: es₂ = es at move
  have mem : .sent .header start c bytes ∈ es := by simp [← shape]
  cases move with
  | @sends p sent n c' main positive room valid =>
    cases List.mem_singleton.mp mem
    obtain ⟨rfl,rfl⟩ : es₁ = [] ∧ es₂ = [] := by
      have size := congrArg List.length shape
      simp only [List.length_append,List.length_cons,List.length_nil] at size
      exact ⟨List.eq_nil_of_length_eq_zero (by omega),List.eq_nil_of_length_eq_zero (by omega)⟩
    refine ⟨rfl,(table.valid _ _ valid).2,fun g on => ⟨table.once _ _ _ on valid,?_,rfl⟩,by simp⟩
    simp only [List.length_take,List.length_drop] at whole
    omega
  | restarts way =>
    cases way <;> simp [restart] at mem
  | _ => simp at mem

end steps

section runs
variable {cfg : Config} {σ : Process} {log : Log Process Event} {t : Token}

theorem aloneRun (run : Run (machine cfg) (Unsplit cfg) σ log) : Alone σ := by
  refine runInvariant (P := fun σ _ => Alone σ) (by simp [Alone,machine,init]) ?_ run
  intro s log a s' es run unsplit taken inv
  exact aloneMoves (lockedRun run) inv unsplit (stepMoves taken)

theorem headerRun (configured : cfg.token = some (some t))
    (run : Run (machine cfg) (Unsplit cfg) σ log) {before after : Log Process Event} {σ₁ conn}
    (sent : HeaderSent log before σ₁ conn after) : HeaderAt σ t conn (onto conn after) := by
  obtain ⟨start,bytes,split,whole⟩ := sent
  induction run generalizing after with
  | start => simp at split
  | @next σ log a σ' es run unsplit taken ih =>
    have move := stepMoves taken
    rcases splitNext split with ⟨rest,old,tail⟩ | ⟨es₁,es₂,shape,same,left,right⟩
    · have next := headerMoves (lockedRun run) (aloneRun run) configured unsplit.1 (ih old) move
      have more : onto conn after = onto conn rest ++ es.flatMap (Event.onto conn) := by
        rw [tail]
        simp [onto,List.flatMap_map]
      rw [more]
      exact next
    · subst shape
      obtain ⟨last,starts⟩ := headerStarts (tableRun run) move whole
      rw [right,last]
      exact starts

end runs

theorem tokenPrefix {mt t : Token} {follows : Bytes} (initial : follows.take 16 <+: t.bytes)
    (inside : mt.bytes <+: follows) : mt = t := by
  have taken : mt.bytes = follows.take 16 := by
    have shape := List.prefix_iff_eq_take.mp inside
    rwa [mt.size] at shape
  rw [← taken] at initial
  have same := initial.eq_of_length (mt.size.trans t.size.symm)
  cases mt
  cases t
  simpa using same

theorem loginContiguous (cfg : Config) (σ : Process) (log : Log Process Event)
    (run : Run (machine cfg) (Unsplit cfg) σ log) : Contiguous cfg σ log := by
  intro t configured before σ₁ conn after sent
  have inv := headerRun configured run sent
  refine ⟨inv.initial,fun mt inside => tokenPrefix inv.initial inside,fun r on main => ?_⟩
  have long : 16 ≤ (onto conn after).length := by
    have stands := (inv.place σ.fd on).2
    rwa [main] at stands
  have full : (onto conn after).take 16 = t.bytes := by
    refine inv.initial.eq_of_length ?_
    rw [List.length_take,Nat.min_eq_left long,t.size]
  rw [← full]
  exact List.take_prefix _ _

def forwardConfig : Config := ⟨some (some .zero)⟩

theorem loginContiguousBusy : ∃ σ log, Run (machine forwardConfig) (Unsplit forwardConfig) σ log ∧
    ∃ before σ₁ after, HeaderSent log before σ₁ 0 after ∧ Followed σ .zero 0 (onto 0 after) ∧
      (onto 0 after).length = 18 := by
  obtain ⟨σ,log,run,shows⟩ := replayReaches (machine forwardConfig) (Unsplit forwardConfig)
    (connectTo 5 ++ ([.lock .main,.wake,.send .main 1,.send .main 1,.sendReturn .main 2] : List Action) ++
      writePiece 16 ++ ([.lock .kalive,.send .kalive 2] : List Action))
    (fun r => r.2[3]?.map Prod.snd = some (Event.sent .header 1 0 [0]) ∧
      (onto 0 (r.2.drop 4)).length = 18) (by decide)
  obtain ⟨header,size⟩ := of_decide_eq_true shows
  obtain ⟨σ₁,split⟩ := cutAt header
  have sent : HeaderSent log (log.take 3) σ₁ 0 (log.drop 4) := ⟨1,[0],split,rfl⟩
  exact ⟨σ,log,run,log.take 3,σ₁,log.drop 4,sent,
    loginContiguous forwardConfig σ log run .zero rfl _ σ₁ 0 _ sent,size⟩

/- The keep-alive task waits for the lock while the header is sent and gets it next:
the server takes its bytes for the first two of the token. -/
theorem loginSplit :
    ¬ ∀ cfg σ log, Run (machine cfg) (SendsWhole cfg) σ log → Contiguous cfg σ log := by
  intro contiguous
  obtain ⟨σ,log,run,shows⟩ := replayReaches (machine forwardConfig) (SendsWhole forwardConfig)
    (connectTo 5 ++ ([.lock .main,.wake,.send .main 2,.sendReturn .main 2,.lock .kalive,
      .send .kalive 2,.sendReturn .kalive 2] : List Action) ++ writePiece 16)
    (fun r => r.2[2]?.map Prod.snd = some (Event.sent .header 0 0 [3,0]) ∧
      ¬ (onto 0 (r.2.drop 3)).take 16 <+: Token.zero.bytes) (by decide)
  obtain ⟨header,wrong⟩ := of_decide_eq_true shows
  obtain ⟨σ₁,split⟩ := cutAt header
  have sent : HeaderSent log (log.take 2) σ₁ 0 (log.drop 3) := ⟨0,[3,0],split,rfl⟩
  exact wrong (contiguous _ σ log run .zero rfl _ σ₁ 0 _ sent).initial

end HevFsh.ForwardTask
