import HevFsh.ForwardLogin
import Mathlib.Data.Fintype.Pigeonhole

/-! How a forwarder comes back. Its two tasks share a number and a lock, and what has
gone wrong before may have left the number to another task; once calls succeed again
the main task logs in anew, with nobody waiting for a lock that is never released. -/
namespace HevFsh.ForwardTask
open Protocol Transitions ClientForward

def Main.uses (fd : Int) : Main → Option Int
  | .asleep => none
  | .connecting g => some g
  | .writeLock _ | .writeSend _ _ | .reading _ => some fd

def lost (σ : Process) : Bool := match σ.main.uses σ.fd with
  | some g => (σ.fds g).isNone
  | none => false

/- The server is there: every call does what it is for, except on a number that is no
longer open. The timer of the keep-alive task does not run out, and the other tasks
keep what they have. -/
inductive Served (cfg : Config) (σ : Process) : Action → Prop where
  | socket {fd} : Served cfg σ (.socket fd)
  | connects {res} (done : 0 ≤ res) : Served cfg σ (.connectReturn res)
  | lock {w} : Served cfg σ (.lock w)
  | send {w n} : Served cfg σ (.send w n)
  | written {p res} (main : σ.main = .writeSend p (p.bytes cfg).length) (done : 0 < res) :
      Served cfg σ (.sendReturn .main res)
  | kept {res} : Served cfg σ (.sendReturn .kalive res)
  | writeLost {res} (gone : lost σ = true) (fail : res ≤ 0) : Served cfg σ (.sendReturn .main res)
  | readLost (gone : lost σ = true) : Served cfg σ .recvFails

def Main.distance (cfg : Config) : Main → Nat
  | .reading _ => 0
  | .writeSend .token sent => (Piece.token.bytes cfg).length - sent + 1
  | .writeLock .token => 18
  | .writeSend .header sent => 2 - sent + 19
  | .writeLock .header => 22
  | .connecting _ => 23
  | .asleep => 24

def Kalive.distance : Kalive → Nat
  | .asleep => 0
  | .writeLock => 4
  | .writeSend _ sent => 2 - sent + 1

def distance (cfg : Config) (σ : Process) : Nat :=
  σ.main.distance cfg + σ.kalive.distance + if lost σ then 25 else 0

structure Holder (cfg : Config) (σ : Process) : Prop where
  main : σ.wlock = some .main → ∃ p n, σ.main = .writeSend p n
  kalive : σ.wlock = some .kalive → ∃ fd n, σ.kalive = .writeSend fd n
  room : ∀ p n, σ.main = .writeSend p n → n ≤ (p.bytes cfg).length

structure Listening (σ : Process) : Prop where
  main : ∃ r, σ.main = .reading r
  valid : σ.fds σ.fd ≠ none
  kalive : σ.kalive = .asleep
  free : σ.wlock = none

def Event.said (conn : Nat) : Event → Bytes
  | .sent _ _ c bytes => if c = conn then bytes else []
  | _ => []

def said (conn : Nat) (log : Log Process Event) : Bytes := log.flatMap (fun e => e.2.said conn)

def login (cfg : Config) : Bytes := Piece.header.bytes cfg ++ Piece.token.bytes cfg

def Main.gone (cfg : Config) : Main → Bytes
  | .asleep | .connecting _ | .writeLock .header => []
  | .writeSend .header n => (Piece.header.bytes cfg).take n
  | .writeLock .token => Piece.header.bytes cfg
  | .writeSend .token n => Piece.header.bytes cfg ++ (Piece.token.bytes cfg).take n
  | .reading _ => login cfg

def Saying (cfg : Config) (σ : Process) (log : Log Process Event) : Prop :=
  ∀ g, σ.main.uses σ.fd = some g → ∃ c, σ.fds g = some c ∧ said c log = σ.main.gone cfg

section steps
variable {cfg : Config} {σ σ' : Process} {a : Action} {es : List Event}

@[simp] theorem headerLength : (Piece.header.bytes cfg).length = 2 := rfl

theorem tokenLength (cfg : Config) : (Piece.token.bytes cfg).length ≤ 16 := by
  simp only [Piece.bytes]
  split
  · rename_i t configured
    exact t.size.le
  · simp

theorem numberFree (table : Table σ) : ∃ fd, 0 ≤ fd ∧ σ.fds fd = none := by
  by_contra full
  have on : ∀ k : Nat, ∃ c, σ.fds k = some c := by
    intro k
    refine Option.ne_none_iff_exists'.mp (fun closed => full ⟨k,Int.natCast_nonneg k,closed⟩)
  choose conn on using on
  have below : ∀ k, conn k < σ.count := fun k => (table.valid k (conn k) (on k)).2
  obtain ⟨j,k,apart,same⟩ := Fintype.exists_ne_map_eq_of_card_lt
    (fun k : Fin (σ.count + 1) => (⟨conn k,below k⟩ : Fin σ.count)) (by simp)
  have same : conn j = conn k := congrArg Fin.val same
  have numbers := table.once j k (conn j) (on j) (same ▸ on k)
  exact apart (Fin.ext (by omega))

theorem keepSendsRoom {n} (taken : step cfg σ (.send .kalive n) = some (σ',es)) :
    ∃ fd sent, σ.kalive = .writeSend fd sent ∧ 0 < n ∧ sent + n ≤ 2 := by
  simp only [step] at taken
  split at taken <;> try contradiction
  rename_i fd sent kalive
  split at taken <;> try contradiction
  rename_i fits
  exact ⟨fd,sent,kalive,fits⟩

theorem holderRestart (inv : Holder cfg σ) (other : σ.wlock ≠ some .main) : Holder cfg (restart σ).1 :=
  ⟨fun held => absurd held other,inv.kalive,fun p n at' => by simp [restart] at at'⟩

theorem holderApart (inv : Holder cfg σ) (apart : ∀ p n, σ.main ≠ .writeSend p n) :
    σ.wlock ≠ some .main := by
  intro held
  obtain ⟨p,n,main⟩ := inv.main held
  exact apart p n main

theorem holderMoves (inv : Holder cfg σ) (move : Moves cfg σ a σ' es) : Holder cfg σ' := by
  cases move with
  | restarts way =>
    cases way with
    | noSocket main => exact holderRestart inv (holderApart inv (by simp [main]))
    | connectFails main fail =>
      have other := holderApart inv (by simp [main])
      exact holderRestart ⟨inv.main,inv.kalive,inv.room⟩ other
    | writeFails main fail =>
      exact ⟨fun held => by simp [restart] at held,fun held => by simp [restart] at held,
        fun p n at' => by simp [restart] at at'⟩
    | stops main ending => exact holderRestart inv (holderApart inv (by simp [main]))
    | recvFails main => exact holderRestart inv (holderApart inv (by simp [main]))
  | socket main valid free =>
    exact ⟨fun held => by simpa [main] using inv.main held,inv.kalive,fun p n at' => by simp at at'⟩
  | connects main done =>
    exact ⟨fun held => by simpa [main] using inv.main held,inv.kalive,fun p n at' => by simp at at'⟩
  | @locks p main free =>
    refine ⟨fun _ => ⟨p,0,rfl⟩,fun held => by simp at held,?_⟩
    intro q n at'
    cases at'
    exact Nat.zero_le _
  | keepLocks kalive free => exact ⟨fun held => by simp at held,fun _ => ⟨_,_,rfl⟩,inv.room⟩
  | @sends p sent n conn main positive room valid =>
    refine ⟨fun _ => ⟨p,_,rfl⟩,inv.kalive,?_⟩
    intro q m at'
    cases at'
    exact room
  | keepSends kalive valid => exact ⟨inv.main,fun _ => ⟨_,_,rfl⟩,inv.room⟩
  | headerWritten main done configured =>
    exact ⟨fun held => by simp at held,fun held => by simp at held,fun p n at' => by simp at at'⟩
  | loginWritten main done last =>
    exact ⟨fun held => by simp at held,fun held => by simp at held,fun p n at' => by simp at at'⟩
  | keepReturns kalive => exact ⟨fun held => by simp at held,fun held => by simp at held,inv.room⟩
  | reads main =>
    exact ⟨fun held => by simpa [main] using inv.main held,inv.kalive,fun p n at' => by simp at at'⟩
  | wakes kalive =>
    exact ⟨inv.main,fun held => by simpa [kalive] using inv.kalive held,inv.room⟩
  | opens valid free => exact ⟨inv.main,inv.kalive,inv.room⟩
  | closes held => exact ⟨inv.main,inv.kalive,inv.room⟩

theorem restartNearer (gone : lost σ = true) : distance cfg (restart σ).1 < distance cfg σ := by
  have fresh : lost (restart σ).1 = false := rfl
  have top : (restart σ).1.main.distance cfg = 24 := rfl
  have same : (restart σ).1.kalive = σ.kalive := rfl
  unfold distance
  rw [fresh,top,same,gone]
  simp only [reduceIte,Bool.false_eq_true]
  omega

theorem mainNearer (kalive : σ'.kalive = σ.kalive) (same : lost σ' = lost σ)
    (nearer : σ'.main.distance cfg < σ.main.distance cfg) : distance cfg σ' < distance cfg σ := by
  unfold distance
  rw [kalive,same]
  omega

theorem kaliveNearer (main : σ'.main = σ.main) (same : lost σ' = lost σ)
    (nearer : σ'.kalive.distance < σ.kalive.distance) : distance cfg σ' < distance cfg σ := by
  unfold distance
  rw [main,same]
  omega

theorem servedNearer (usable : cfg.token ≠ some none) (served : Served cfg σ a)
    (taken : step cfg σ a = some (σ',es)) : distance cfg σ' < distance cfg σ := by
  cases stepMoves taken with
  | restarts way =>
    cases way with
    | noSocket main => cases served
    | connectFails main fail => cases served; omega
    | writeFails main fail =>
      cases served with
      | written at' done =>
        rcases fail with fail | ⟨_,bad⟩
        · omega
        · exact absurd bad usable
      | writeLost gone fail => exact restartNearer (σ := {σ with wlock := none}) gone
    | stops main ending => cases served
    | recvFails main =>
      cases served with
      | readLost gone => exact restartNearer gone
  | socket main valid free =>
    -- the new number is open
    simp [distance,lost,main,Main.uses,Main.distance]
  | connects main done =>
    exact mainNearer rfl (by simp [lost,main,Main.uses]) (by simp [main,Main.distance])
  | @locks p main free =>
    refine mainNearer rfl (by simp [lost,main,Main.uses]) ?_
    have := tokenLength cfg
    cases p with
    | header => simp [main,Main.distance]
    | token => simp [main,Main.distance]; omega
  | keepLocks kalive free => exact kaliveNearer rfl rfl (by simp [kalive,Kalive.distance])
  | @sends p sent n conn main positive room valid =>
    refine mainNearer rfl (by simp [lost,main,Main.uses]) ?_
    cases p <;> simp [main,Main.distance] at room ⊢ <;> omega
  | @keepSends fd sent n conn kalive valid =>
    obtain ⟨g,m,at',positive,room⟩ := keepSendsRoom taken
    refine kaliveNearer rfl rfl ?_
    cases kalive.symm.trans at'
    simp only [kalive,Kalive.distance]
    omega
  | @headerWritten sent res t main done configured =>
    refine mainNearer rfl (by simp [lost,main,Main.uses]) ?_
    simp only [main,Main.distance]
    omega
  | @loginWritten p sent res main done last =>
    refine mainNearer rfl (by simp [lost,main,Main.uses]) ?_
    cases p <;> simp [main,Main.distance]
  | keepReturns kalive => exact kaliveNearer rfl rfl (by simp [kalive,Kalive.distance])
  | reads main => cases served
  | wakes kalive => cases served
  | opens valid free => cases served
  | closes held => cases served

theorem distanceBound (cfg : Config) (σ : Process) : distance cfg σ ≤ 52 := by
  have kalive : σ.kalive.distance ≤ 4 := by
    cases σ.kalive <;> simp only [Kalive.distance] <;> omega
  have long := tokenLength cfg
  have main : σ.main.distance cfg + (if lost σ then 25 else 0) ≤ 48 := by
    cases at' : σ.main with
    | asleep => simp [Main.distance,lost,at',Main.uses]
    | connecting fd => simp only [Main.distance]; split <;> omega
    | writeLock p => cases p <;> simp only [Main.distance] <;> split <;> omega
    | writeSend p sent => cases p <;> simp only [Main.distance] <;> split <;> omega
    | reading r => simp only [Main.distance]; split <;> omega
  unfold distance
  omega

theorem stuckQuiet (stuck : Stuck (machine cfg) (Served cfg) σ) (fd : Int) (n : Nat) :
    σ.kalive ≠ .writeSend fd n := by
  intro at'
  have never := stuckNone stuck (a := .sendReturn .kalive 0) .kept
  simp [machine,step,at'] at never

theorem stuckFree (inv : Holder cfg σ) (stuck : Stuck (machine cfg) (Served cfg) σ)
    (apart : ∀ p n, σ.main ≠ .writeSend p n) : σ.wlock = none := by
  rcases held : σ.wlock with _ | _ | _
  · rfl
  · exact absurd held (holderApart inv apart)
  · obtain ⟨fd,n,at'⟩ := inv.kalive held
    exact absurd at' (stuckQuiet stuck fd n)

theorem stuckListens (table : Table σ) (inv : Holder cfg σ)
    (stuck : Stuck (machine cfg) (Served cfg) σ) : Listening σ := by
  have never : ∀ a, Served cfg σ a → step cfg σ a = none := fun a served => stuckNone stuck served
  cases main : σ.main with
  | asleep =>
    obtain ⟨fd,valid,unused⟩ := numberFree table
    have := never (.socket fd) .socket
    simp [step,main,valid,unused] at this
  | connecting fd =>
    have := never (.connectReturn 0) (.connects (Int.le_refl 0))
    simp [step,connectReturn,main] at this
  | writeLock p =>
    have := never (.lock .main) .lock
    simp [step,main,stuckFree inv stuck (by simp [main])] at this
  | writeSend p n =>
    cases at' : σ.fds σ.fd with
    | none =>
      have gone : lost σ = true := by simp [lost,main,Main.uses,at']
      have := never (.sendReturn .main 0) (.writeLost gone (Int.le_refl 0))
      simp [step,mainReturn,main] at this
    | some conn =>
      rcases Nat.lt_or_eq_of_le (inv.room p n main) with less | whole
      · have := never (.send .main 1) .send
        simp [step,main,at',Nat.succ_le_of_lt less] at this
      · have := never (.sendReturn .main 1) (.written (whole ▸ main) (by decide))
        simp [step,mainReturn,main] at this
  | reading r =>
    have free := stuckFree inv stuck (by simp [main])
    refine ⟨⟨r,main⟩,fun closed => ?_,?_,free⟩
    · have gone : lost σ = true := by simp [lost,main,Main.uses,closed]
      have := never .recvFails (.readLost gone)
      simp [step,main] at this
    · cases at' : σ.kalive with
      | asleep => rfl
      | writeLock =>
        have := never (.lock .kalive) .lock
        simp [step,at',free] at this
      | writeSend fd n => exact absurd at' (stuckQuiet stuck fd n)

theorem saidNext {log : Log Process Event} {c : Nat} :
    said c (log ++ es.map (σ,·)) = said c log ++ es.flatMap (Event.said c) := by
  simp [said,List.flatMap_map]

theorem freshNext {log : Log Process Event} (table : Table σ) (inv : ∀ c, σ.count ≤ c → said c log = [])
    (move : Moves cfg σ a σ' es) : ∀ c, σ'.count ≤ c → said c (log ++ es.map (σ,·)) = [] := by
  have later : σ.count ≤ σ'.count := by
    cases move with
    | restarts way => cases way <;> exact Nat.le_refl _
    | socket main valid free => exact Nat.le_succ _
    | opens valid free => exact Nat.le_succ _
    | _ => exact Nat.le_refl _
  intro c late
  rw [saidNext,inv c (later.trans late),List.nil_append]
  cases move with
  | restarts way => cases way <;> rfl
  | @sends p sent n conn main positive room valid =>
    have early := (table.valid σ.fd conn valid).2
    have other : conn ≠ c := by
      have := later.trans late
      omega
    simp [Event.said,other]
  | _ => rfl

theorem sayingOn {log log' : Log Process Event} (inv : Saying cfg σ log)
    (uses : σ'.main.uses σ'.fd = σ.main.uses σ.fd) (fds : σ'.fds = σ.fds)
    (more : ∀ g c, σ.main.uses σ.fd = some g → σ.fds g = some c → said c log = σ.main.gone cfg →
      said c log' = σ'.main.gone cfg) : Saying cfg σ' log' := by
  intro g at'
  rw [uses] at at'
  obtain ⟨c,on,so⟩ := inv g at'
  exact ⟨c,fds ▸ on,more g c at' on so⟩

theorem sayingServed {log : Log Process Event} (fresh : ∀ c, σ.count ≤ c → said c log = [])
    (inv : Saying cfg σ log) (served : Served cfg σ a) (taken : step cfg σ a = some (σ',es)) :
    Saying cfg σ' (log ++ es.map (σ,·)) := by
  cases stepMoves taken with
  | restarts way => exact fun g at' => by simp [restart,Main.uses] at at'
  | @socket fd main valid free =>
    intro g at'
    cases at'
    refine ⟨σ.count,by simp,?_⟩
    rw [saidNext,fresh σ.count (Nat.le_refl _)]
    rfl
  | @connects fd res main done =>
    refine sayingOn inv (by simp [main,Main.uses]) rfl (fun g c _ _ so => ?_)
    rw [saidNext,so]
    simp [main,Main.gone,Event.said]
  | @locks p main free =>
    refine sayingOn inv (by simp [main,Main.uses]) rfl (fun g c _ _ so => ?_)
    rw [saidNext,so]
    cases p <;> simp [main,Main.gone]
  | keepLocks kalive free =>
    exact sayingOn inv rfl rfl (fun g c _ _ so => by rw [saidNext,so]; simp)
  | @sends p sent n conn main positive room valid =>
    refine sayingOn inv (by simp [main,Main.uses]) rfl (fun g c at' on so => ?_)
    rw [main] at at'
    cases at'
    cases valid.symm.trans on
    rw [saidNext,so]
    cases p <;> simp [main,Main.gone,Event.said,List.take_add]
  | keepSends kalive valid =>
    exact sayingOn inv rfl rfl (fun g c _ _ so => by rw [saidNext,so]; simp [Event.said])
  | @headerWritten sent res t main done configured =>
    refine sayingOn inv (by simp [main,Main.uses]) rfl (fun g c _ _ so => ?_)
    cases served with
    | written at' ok =>
      cases main.symm.trans at'
      rw [saidNext,so]
      simp [main,Main.gone]
    | writeLost gone fail => omega
  | @loginWritten p sent res main done last =>
    refine sayingOn inv (by simp [main,Main.uses]) rfl (fun g c _ _ so => ?_)
    cases served with
    | written at' ok =>
      cases main.symm.trans at'
      rw [saidNext,so]
      cases p with
      | token => simp [main,Main.gone,login]
      | header =>
        have absent : cfg.token = none := last.resolve_left (by simp)
        simp [main,Main.gone,login,Piece.bytes,absent]
    | writeLost gone fail => omega
  | keepReturns kalive =>
    exact sayingOn inv rfl rfl (fun g c _ _ so => by rw [saidNext,so]; simp)
  | reads main => cases served
  | wakes kalive => cases served
  | opens valid free => cases served
  | closes held => cases served

def Main.early : Main → Bool
  | .writeLock .token | .writeSend .token _ | .reading _ => false
  | _ => true

theorem earlyMoves (unreadable : cfg.token = some none) (inv : σ.main.early = true)
    (move : Moves cfg σ a σ' es) : σ'.main.early = true := by
  cases move with
  | restarts way => rfl
  | socket main valid free => rfl
  | connects main done => rfl
  | @locks p main free => cases p <;> simp_all [Main.early]
  | @sends p sent n conn main positive room valid => cases p <;> simp_all [Main.early]
  | headerWritten main done configured => simp [unreadable] at configured
  | @loginWritten p sent res main done last =>
    rcases last with rfl | absent
    · simp [main,Main.early] at inv
    · simp [unreadable] at absent
  | reads main => simp [main,Main.early] at inv
  | _ => exact inv

end steps

section runs
variable {cfg : Config} {ok : Process → Action → Prop} {σ : Process} {log : Log Process Event}

theorem holderRun (run : Run (machine cfg) ok σ log) : Holder cfg σ := by
  refine runInvariant (P := fun σ _ => Holder cfg σ) ?_ ?_ run
  · exact ⟨fun held => by simp [machine,init] at held,fun held => by simp [machine,init] at held,
      fun p n at' => by simp [machine,init] at at'⟩
  · intro s log a s' es _ _ taken inv
    exact holderMoves inv (stepMoves taken)

theorem freshRun (run : Run (machine cfg) ok σ log) : ∀ c, σ.count ≤ c → said c log = [] := by
  refine runInvariant (P := fun σ log => ∀ c, σ.count ≤ c → said c log = []) (fun c _ => rfl) ?_ run
  intro s log a s' es run _ taken inv
  exact freshNext (tableRun run) inv (stepMoves taken)

theorem earlyRun (unreadable : cfg.token = some none) (run : Run (machine cfg) ok σ log) :
    σ.main.early = true := by
  refine runInvariant (P := fun σ _ => σ.main.early = true) rfl ?_ run
  intro s log a s' es _ _ taken inv
  exact earlyMoves unreadable inv (stepMoves taken)

end runs

structure Recovers (cfg : Config) (σ : Process) (log : Log Process Event) (n : Nat) (σ' : Process) :
    Prop where
  bounded : n ≤ 52
  goesOn : ∃ k τ, Path (machine cfg) (Served cfg) σ' k τ ∧ Stuck (machine cfg) (Served cfg) τ
  listens : Stuck (machine cfg) (Served cfg) σ' → Listening σ'
  loggedIn : σ.main = .asleep → Stuck (machine cfg) (Served cfg) σ' → ∃ more conn,
    Run (machine cfg) (fun _ _ => True) σ' (log ++ more) ∧ σ'.fds σ'.fd = some conn ∧
      said conn (log ++ more) = login cfg

/- Whatever has gone wrong, with numbers closed twice and bytes on the wrong connection:
once calls succeed again, at most 52 results bring both tasks to rest, the main task
reading with its login in full on a connection of its own. With a token text that cannot
be read it never gets there. -/
theorem forwarderRecovers (cfg : Config) (σ : Process) (log : Log Process Event)
    (run : Run (machine cfg) (fun _ _ => True) σ log) (n : Nat) (σ' : Process)
    (served : Path (machine cfg) (Served cfg) σ n σ') :
    (cfg.token ≠ some none → Recovers cfg σ log n σ') ∧
      (cfg.token = some none → ∀ r, σ'.main ≠ .reading r) := by
  obtain ⟨later,after⟩ := runPath run (fun _ _ _ => trivial) served
  refine ⟨fun usable => ?_,fun unreadable r main => ?_⟩
  · have nearer : ∀ {σ a σ' es}, True → Served cfg σ a → (machine cfg).step σ a = some (σ',es) →
        True ∧ distance cfg σ' < distance cfg σ :=
      fun _ served taken => ⟨trivial,servedNearer usable served taken⟩
    have bound := (pathBounded nearer trivial served).2
    have top := distanceBound cfg σ
    refine ⟨by omega,pathStuck nearer trivial,stuckListens (tableRun after) (holderRun after),?_⟩
    intro asleep stuck
    obtain ⟨more,run',saying⟩ := pathInvariant
      (P := fun σ log => Run (machine cfg) (fun _ _ => True) σ log ∧ Saying cfg σ log)
      (fun inv served taken => ⟨.next inv.1 trivial taken,
        sayingServed (freshRun inv.1) inv.2 served taken⟩)
      ⟨run,fun g at' => by simp [asleep,Main.uses] at at'⟩ served
    obtain ⟨r,main⟩ := (stuckListens (tableRun run') (holderRun run') stuck).main
    obtain ⟨conn,on,all⟩ := saying σ'.fd (by simp [main,Main.uses])
    exact ⟨more,conn,run',on,by rwa [main] at all⟩
  · have early := earlyRun unreadable after
    simp [main,Main.early] at early

theorem forwarderRecoversStale : ∃ σ log k τ more conn,
    Run (machine forwardConfig) (fun _ _ => True) σ log ∧ σ.wlock = some .kalive ∧
    σ.kalive = .writeSend 5 1 ∧ σ.others 5 = true ∧
    Path (machine forwardConfig) (Served forwardConfig) σ k τ ∧ k ≤ 52 ∧ Listening τ ∧
    Run (machine forwardConfig) (fun _ _ => True) τ (log ++ more) ∧ τ.fds τ.fd = some conn ∧
    said conn (log ++ more) = message 3 .login Token.zero.bytes := by
  obtain ⟨σ,log,run,shows⟩ := replayReaches (machine forwardConfig) (fun _ _ => True)
    (connectTo 5 ++ ([.lock .main,.send .main 1,.wake,.sendReturn .main (-1),.lock .kalive,.opens 5,
      .send .kalive 1] : List Action))
    (fun r => r.1.main = .asleep ∧ r.1.wlock = some .kalive ∧ r.1.kalive = .writeSend 5 1 ∧
      r.1.others 5 = true) (by decide)
  obtain ⟨asleep,held,kalive,theirs⟩ := of_decide_eq_true shows
  have usable : forwardConfig.token ≠ some none := by decide
  obtain ⟨k,τ,path,stuck⟩ := ((forwarderRecovers forwardConfig σ log run 0 σ (.done σ)).1 usable).goesOn
  have recovers := (forwarderRecovers forwardConfig σ log run k τ path).1 usable
  obtain ⟨more,conn,later,on,all⟩ := recovers.loggedIn asleep stuck
  exact ⟨σ,log,k,τ,more,conn,run,held,kalive,theirs,path,recovers.bounded,recovers.listens stuck,
    later,on,all⟩

end HevFsh.ForwardTask
