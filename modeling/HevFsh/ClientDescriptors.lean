import HevFsh.ClientTask

/-! What the client tasks open they close or hand over, once and each its own, however
their steps mix and whatever numbers are used again. -/
namespace HevFsh.ClientTask
open Protocol Transitions Custody

def valid (fd : Int) : List Int := if 0 ≤ fd then [fd] else []

def Client.holds (c : Client) : List Int :=
  if c.pc.runs then c.pc.extra ++ (valid c.derivedFd ++ valid c.baseFd) else []

def Process.holds (σ : Process) (i : Nat) : List Int := (σ.client i).holds

def Event.custody : Event → Option (Custody.Event Nat)
  | .descriptor e => some e
  | _ => none

def custody (es : List Event) : List (Custody.Event Nat) := es.filterMap Event.custody

def custodyLog (log : Log Process Event) : List (Custody.Event Nat) := custody (log.map Prod.snd)

theorem custodyAppend (es es' : List Event) : custody (es ++ es') = custody es ++ custody es' :=
  List.filterMap_append

theorem custodyNext {log : Log Process Event} {es : List Event} {σ : Process} :
    custodyLog (log ++ es.map (σ,·)) = custodyLog log ++ custody es := by
  simp [custodyLog,custodyAppend,Function.comp_def]

/- From the table and the hands of `σ` to those of `out`, the hands given apart. -/
def Tracks (σ : Process) (out : Out) (hands : Nat → List Int) : Prop :=
  Custody.Moves (2 < ·) σ.table σ.holds (custody out.2) out.1.table hands

section tracks
variable {σ : Process} {out : Out} {hands hands' : Nat → List Int} {i : Nat} {fd : Int}

theorem tracksRefl : Tracks σ (σ,[]) σ.holds := .keeps (fun _ => .refl _)

theorem tracksKeeps (tracks : Tracks σ out hands) (same : ∀ j, (hands' j).Perm (hands j)) :
    Tracks σ out hands' := by
  have whole := Custody.Moves.trans tracks (.keeps same)
  rwa [List.append_nil] at whole

theorem tracksQuiet {es : List Event} (tracks : Tracks σ out hands) (same : custody es = custody out.2)
    {σ' : Process} (table : σ'.table = out.1.table) : Tracks σ (σ',es) hands := by
  unfold Tracks at tracks ⊢
  rw [same,table]
  exact tracks

theorem apartUpdate {l : List Int} : ∀ j, j ≠ i → (Function.update hands i l j).Perm (hands j) := by
  intro j other
  rw [Function.update_of_ne other]

theorem tracksAcquire (valid : 0 ≤ fd) (free : σ.table.fds fd = none) :
    Tracks σ (acquire σ i fd) (Function.update σ.holds i (fd :: σ.holds i)) :=
  .opens valid free (by rw [Function.update_self]) apartUpdate

theorem tracksClose (i : Nat) (fd : Int) (rest : List Int) (tracks : Tracks σ out hands)
    (has : (hands i).Perm (fd :: rest)) :
    Tracks σ (close i fd out) (Function.update hands i rest) := by
  unfold Tracks close
  rw [custodyAppend]
  exact .trans tracks (.closes (by rwa [Function.update_self]) apartUpdate)

theorem tracksCloseValid (i : Nat) (fd : Int) (rest : List Int) (tracks : Tracks σ out hands)
    (has : (hands i).Perm (valid fd ++ rest)) :
    Tracks σ (closeValid i fd out) (Function.update hands i rest) := by
  unfold closeValid
  unfold valid at has
  split
  · rename_i some'
    rw [if_pos some'] at has
    exact tracksClose i fd rest tracks has
  · rename_i none'
    rw [if_neg none',List.nil_append] at has
    refine tracksKeeps tracks (fun j => ?_)
    by_cases mine : j = i
    · subst mine
      rw [Function.update_self]
      exact has.symm
    · exact apartUpdate j mine

theorem closeClient : (close i fd out).1.client = out.1.client := rfl

theorem closeValidClient : (closeValid i fd out).1.client = out.1.client := by
  unfold closeValid
  split <;> rfl

theorem closeValidCount : (closeValid i fd out).1.count = out.1.count := by
  unfold closeValid
  split <;> rfl

theorem unrefClient : (unref i out).1.client = Function.update out.1.client i {out.1.client i with pc := .ended} := by
  simp only [unref,Process.goto,Process.become,closeValidClient]

theorem unrefCount : (unref i out).1.count = out.1.count := by
  simp only [unref,Process.goto,Process.become,closeValidCount]

theorem tracksUnref (tracks : Tracks σ out hands)
    (has : (hands i).Perm (valid (out.1.client i).derivedFd ++ valid (out.1.client i).baseFd))
    (others : ∀ j, j ≠ i → (out.1.holds j).Perm (hands j)) : Tracks σ (unref i out) (unref i out).1.holds := by
  have first := tracksCloseValid i _ _ tracks has
  have second := tracksCloseValid i (out.1.client i).baseFd [] first
    (by rw [Function.update_self,List.append_nil])
  have whole : Tracks σ (unref i out)
      (Function.update (Function.update hands i (valid (out.1.client i).baseFd)) i []) :=
    tracksQuiet second rfl rfl
  refine tracksKeeps whole (fun j => ?_)
  by_cases mine : j = i
  · subst mine
    simp [Process.holds,unrefClient,Client.holds,Pc.runs]
  · rw [Function.update_of_ne mine,Function.update_of_ne mine]
    refine .trans ?_ (others j mine)
    simp [Process.holds,unrefClient,Function.update_of_ne mine]

end tracks

def Pc.based : Pc → Bool
  | .absent | .ready | .connecting _ | .serving | .ended => false
  | _ => true

structure Shape (c : Client) : Prop where
  unset : c.pc.based = false → c.pc.runs = true → c.baseFd = -1
  based : c.pc.based = true → 0 ≤ c.baseFd
  connects : ∀ fd, c.pc = .connecting fd → 0 ≤ fd
  listens : c.pc = .accepting → c.kind.listener = true
  sock : c.pc.runs = true → c.kind = .sockConnect → 0 ≤ c.fd
  aims : ∀ ifd ofd own, c.pc = .relay ifd ofd own → ofd = 1 ∨ ofd ∈ c.pc.extra ++ valid c.derivedFd

structure Shaped (σ : Process) : Prop where
  fresh : ∀ i, σ.count ≤ i → (σ.client i).pc = .absent
  shape : ∀ i, Shape (σ.client i)

section shape
variable {h : Host} {σ : Process} {i : Nat} {a : Action} {out : Out} {es : List Event}

theorem shapedBecome (shaped : Shaped σ) {σ' : Process} (i : Nat) (c : Client)
    (client : σ'.client = Function.update σ.client i c) (count : σ.count ≤ σ'.count) (inside : i < σ'.count)
    (shape : Shape c) : Shaped σ' := by
  refine ⟨fun j beyond => ?_,fun j => ?_⟩
  · rw [client,Function.update_of_ne (by omega)]
    exact shaped.fresh j (by omega)
  · by_cases same : j = i
    · subst same
      rwa [client,Function.update_self]
    · rw [client,Function.update_of_ne same]
      exact shaped.shape j

theorem runsInside (shaped : Shaped σ) (runs : (σ.client i).pc.runs = true) : i < σ.count := by
  refine Nat.lt_of_not_le (fun beyond => ?_)
  rw [shaped.fresh i beyond] at runs
  contradiction

theorem shapedMoves (shaped : Shaped σ) {σ' : Process} (i : Nat) (base : Int) (pc : Pc)
    (runs : (σ.client i).pc.runs = true)
    (client : σ'.client = Function.update σ.client i {σ.client i with baseFd := base, pc := pc})
    (count : σ'.count = σ.count) (unset : pc.based = false → pc.runs = true → base = -1)
    (based : pc.based = true → 0 ≤ base) (connects : ∀ fd, pc = .connecting fd → 0 ≤ fd)
    (listens : pc = .accepting → (σ.client i).kind.listener = true)
    (aims : ∀ ifd ofd own, pc = .relay ifd ofd own → ofd = 1 ∨
        ofd ∈ pc.extra ++ valid (σ.client i).derivedFd) :
    Shaped σ' :=
  shapedBecome shaped i _ client (Nat.le_of_eq count.symm) (by rw [count]; exact runsInside shaped runs)
    ⟨unset,based,connects,listens,fun _ => (shaped.shape i).sock runs,aims⟩

theorem shapedUnref (shaped : Shaped σ) (client : out.1.client = σ.client) (count : out.1.count = σ.count)
    (runs : (σ.client i).pc.runs = true) : Shaped (unref i out).1 := by
  refine shapedMoves shaped i (σ.client i).baseFd .ended runs (by rw [unrefClient,client]) (by rw [unrefCount,count])
    ?_ ?_ ?_ ?_ ?_ <;> simp [Pc.based,Pc.runs]

theorem extraRuns (extra : (σ.client i).pc.extra = [fd]) : (σ.client i).pc.runs = true := by
  cases pc : (σ.client i).pc <;> simp [pc,Pc.extra,Pc.runs] at extra ⊢

theorem encryptedBased (ready : Encrypted h σ i a es) : (σ.client i).pc.based = true := by
  cases ready with
  | plain pc positive open' => rcases pc with ⟨t,n,pc⟩ | ⟨n,pc⟩ <;> simp [pc,Pc.based]
  | keyed pc size agreed => simp [pc,Pc.based]

theorem speaksPlace {pc : Pc} (spoken : Speaks h σ i a pc es) :
    (σ.client i).pc.based = true ∧ (σ.client i).pc.runs = true ∧ (σ.client i).pc.extra = [] ∧
      pc.based = true ∧ pc.runs = true ∧ pc.extra = [] ∧ pc ≠ .accepting ∧ custody es = [] := by
  cases spoken with
  | token pc positive token => simp [pc,Pc.based,Pc.runs,Pc.extra,custody]
  | seals pc positive agreed size =>
    rcases pc with ⟨t,n,pc⟩ | ⟨n,pc⟩ <;> simp [pc,Pc.based,Pc.runs,Pc.extra,custody]
  | sealed pc positive agreed => simp [pc,Pc.based,Pc.runs,Pc.extra,custody,Event.custody]
  | begins ready next =>
    obtain ⟨runs,alone⟩ := encryptedPlace ready
    have quiet : custody es = [] := by
      cases ready <;> simp [custody,Event.custody]
    refine ⟨encryptedBased ready,runs,alone,?_⟩
    cases next <;> simp [Pc.based,Pc.runs,Pc.extra,quiet]
  | informed pc positive => simp [pc,Pc.based,Pc.runs,Pc.extra,custody]

theorem pieceAdvance {piece : Bytes × Nat} (some' : (σ.client i).piece = some piece) (n : Nat) :
    (σ.client i).pc.based = true ∧ (σ.client i).pc.runs = true ∧ (σ.client i).pc.extra = [] ∧
      ((σ.client i).pc.advance n).based = true ∧ ((σ.client i).pc.advance n).runs = true ∧
      ((σ.client i).pc.advance n).extra = [] ∧ (σ.client i).pc.advance n ≠ .accepting ∧
      ∀ ifd ofd own, (σ.client i).pc.advance n ≠ .relay ifd ofd own := by
  cases pc : (σ.client i).pc <;>
    simp [Client.piece,pc,Pc.based,Pc.runs,Pc.extra,Pc.advance] at some' ⊢

theorem speaksAims {pc : Pc} (shape : Shape (σ.client i)) (spoken : Speaks h σ i a pc es) {ifd ofd : Int}
    {own : Option Int} (relays : pc = .relay ifd ofd own) :
    ofd = 1 ∨ ofd ∈ pc.extra ++ valid (σ.client i).derivedFd := by
  have runs := (speaksPlace spoken).2.1
  cases spoken with
  | begins ready next =>
    cases next with
    | sock kind =>
      cases relays
      have some' := shape.sock runs kind
      refine .inr (List.mem_append_right _ ?_)
      simp [valid,Client.derivedFd,kind,some']
    | _ => contradiction
  | informed pc positive =>
    cases relays
    unfold Client.locals
    split
    · rename_i own
      refine .inr (List.mem_append_right _ ?_)
      simp [valid,Client.derivedFd,own.1,own.2]
    · exact .inl rfl
  | _ => contradiction

theorem shapedGoes (shaped : Shaped σ) (goes : Goes h σ a out) : Shaped out.1 := by
  cases goes with
  | @spawns kind token top =>
    refine shapedBecome shaped σ.count ⟨kind,token,-1,-1,.ready⟩ rfl (Nat.le_succ _) (Nat.lt_succ_self _)
      ⟨?_,?_,?_,?_,fun _ sock => absurd sock top,?_⟩ <;> simp [Pc.based]
  | leaves runs alone hears => exact shapedUnref shaped rfl rfl runs
  | fails pc valid free => exact shapedUnref shaped rfl rfl (by simp [pc,Pc.runs])
  | @connecting a i fd pc client valid free =>
    have set := (shaped.shape i).unset (by simp [pc,Pc.based]) (by simp [pc,Pc.runs])
    refine shapedMoves shaped i (σ.client i).baseFd (.connecting fd) (by simp [pc,Pc.runs]) rfl rfl
      ?_ ?_ ?_ ?_ ?_ <;> simp [Pc.based,set,valid]
  | @listening a i fd pc listens valid free =>
    refine shapedMoves shaped i fd .accepting (by simp [pc,Pc.runs]) rfl rfl ?_ ?_ ?_ ?_ ?_ <;>
      simp [Pc.based,listens,valid]
  | loses extra => exact shapedUnref shaped rfl rfl (extraRuns extra)
  | @connected a i fd pc here next =>
    have valid := (shaped.shape i).connects fd here
    refine shapedMoves shaped i fd pc (by simp [here,Pc.runs]) rfl rfl ?_ ?_ ?_ ?_ ?_ <;> subst next <;> split <;>
      simp [Pc.based,valid]
  | @reached a i lfd pc =>
    have based := (shaped.shape i).based (by simp [pc,Pc.based])
    refine shapedMoves shaped i (σ.client i).baseFd (.relay lfd lfd (some lfd)) (by simp [pc,Pc.runs]) rfl rfl
      ?_ ?_ ?_ ?_ ?_ <;> simp [Pc.based,Pc.extra,based]
  | @sends i n bytes sent k piece positive room valid =>
    obtain ⟨wasBased,runs,_,based,_,alone,other,aside⟩ := pieceAdvance piece n
    refine shapedMoves shaped i (σ.client i).baseFd ((σ.client i).pc.advance n) runs rfl rfl (by simp [based])
      (fun _ => (shaped.shape i).based wasBased) (fun fd is => ?_) (by simp [other])
      (fun ifd ofd own is => absurd is (aside ifd ofd own))
    simp [is,Pc.extra] at alone
  | @speaks a i pc es spoken =>
    obtain ⟨wasBased,runs,_,based,_,alone,other,_⟩ := speaksPlace spoken
    refine shapedMoves shaped i (σ.client i).baseFd pc runs rfl rfl (by simp [based])
      (fun _ => (shaped.shape i).based wasBased) (fun fd is => ?_) (by simp [other])
      (fun ifd ofd own is => speaksAims (shaped.shape i) spoken is)
    simp [is,Pc.extra] at alone
  | @gives a i es ready kind =>
    refine shapedMoves shaped i (-1) .serving (encryptedPlace ready).1 rfl rfl ?_ ?_ ?_ ?_ ?_ <;> simp [Pc.based]
  | @dials a i lfd info target pc kind size allowed valid free =>
    have based := (shaped.shape i).based (by simp [pc,Pc.based])
    refine shapedMoves shaped i (σ.client i).baseFd (.dialing lfd) (by simp [pc,Pc.runs]) rfl rfl
      ?_ ?_ ?_ ?_ ?_ <;> simp [Pc.based,based]
  | @shell a i pfd info pc kind valid free =>
    have based := (shaped.shape i).based (by simp [pc,Pc.based])
    refine shapedMoves shaped i (σ.client i).baseFd (.relay pfd pfd (some pfd)) (by simp [pc,Pc.runs]) rfl rfl
      ?_ ?_ ?_ ?_ ?_ <;> simp [Pc.based,Pc.extra,based]
  | noShell pc kind valid free => exact shapedUnref shaped rfl rfl (by simp [pc,Pc.runs])
  | relays pc valid => exact shaped
  | @accepts a i fd pc valid free =>
    refine shapedBecome shaped σ.count ⟨(σ.client i).kind.dispatch,.zero,-1,fd,.ready⟩ rfl (Nat.le_succ _)
      (Nat.lt_succ_self _) ⟨?_,?_,?_,?_,fun _ _ => valid,?_⟩ <;> simp [Pc.based]
  | drops pc valid free => exact ⟨shaped.fresh,shaped.shape⟩
  | opens valid free => exact ⟨shaped.fresh,shaped.shape⟩
  | closes on => exact ⟨shaped.fresh,shaped.shape⟩

theorem holdsRuns (runs : (σ.client i).pc.runs = true) :
    σ.holds i = (σ.client i).pc.extra ++ (valid (σ.client i).derivedFd ++ valid (σ.client i).baseFd) := by
  simp [Process.holds,Client.holds,runs]

theorem holdsIdle (runs : (σ.client i).pc.runs = false) : σ.holds i = [] := by
  simp [Process.holds,Client.holds,runs]

theorem hearsQuiet (hears : Hears h σ i es) : custody es = [] := by
  cases hears <;> simp [custody,Event.custody]

theorem tracksBecome {hands : Nat → List Int} {σ' : Process} {c : Client} (tracks : Tracks σ (σ',es) hands)
    (client : σ'.client = Function.update σ.client i c) (mine : c.holds.Perm (hands i))
    (others : ∀ j, j ≠ i → hands j = σ.holds j) : Tracks σ (σ',es) σ'.holds := by
  refine tracksKeeps tracks (fun j => ?_)
  by_cases same : j = i
  · subst same
    simpa [Process.holds,client] using mine
  · rw [others j same]
    simp [Process.holds,client,Function.update_of_ne same]

theorem tracksLeaves (tracks : Tracks σ out σ.holds) (client : out.1.client = σ.client)
    (runs : (σ.client i).pc.runs = true) (alone : (σ.client i).pc.extra = []) :
    Tracks σ (unref i out) (unref i out).1.holds := by
  refine tracksUnref tracks ?_ (fun j _ => ?_)
  · rw [holdsRuns runs,alone,client,List.nil_append]
  · simp [Process.holds,client]

theorem tracksLoses {fd : Int} (tracks : Tracks σ out σ.holds) (client : out.1.client = σ.client)
    (extra : (σ.client i).pc.extra = [fd]) :
    Tracks σ (unref i (close i fd out)) (unref i (close i fd out)).1.holds := by
  have closed := tracksClose i fd _ tracks (by rw [holdsRuns (extraRuns extra),extra]; exact .refl _)
  refine tracksUnref closed ?_ (fun j other => ?_)
  · rw [Function.update_self,closeClient,client]
    exact .refl _
  · rw [Function.update_of_ne other]
    simp [Process.holds,closeClient,client]

theorem tracksFails {fd : Int} (pc : (σ.client i).pc.extra = []) (runs : (σ.client i).pc.runs = true)
    (valid : 0 ≤ fd) (free : σ.table.fds fd = none) (same : custody es = custody (acquire σ i fd).2) :
    Tracks σ (unref i (close i fd ((acquire σ i fd).1,es)))
      (unref i (close i fd ((acquire σ i fd).1,es))).1.holds := by
  have opened : Tracks σ ((acquire σ i fd).1,es) (Function.update σ.holds i (fd :: σ.holds i)) :=
    tracksQuiet (tracksAcquire valid free) same rfl
  have closed := tracksClose i fd (σ.holds i) opened (by rw [Function.update_self])
  rw [Function.update_idem,Function.update_eq_self] at closed
  exact tracksLeaves closed rfl runs pc

theorem tracksTakes {fd : Int} {c : Client} (valid' : 0 ≤ fd)
    (free : σ.table.fds fd = none) (same : custody es = custody (acquire σ i fd).2)
    (mine : c.holds.Perm (fd :: σ.holds i)) :
    Tracks σ ((acquire σ i fd).1.become i c,es) ((acquire σ i fd).1.become i c).holds := by
  have opened : Tracks σ ((acquire σ i fd).1.become i c,es) (Function.update σ.holds i (fd :: σ.holds i)) :=
    tracksQuiet (tracksAcquire valid' free) same rfl
  exact tracksBecome opened rfl (by rwa [Function.update_self]) (fun j other => Function.update_of_ne other _ _)

theorem tracksSame {c : Client} (quiet : custody es = []) (mine : c.holds.Perm (σ.holds i)) :
    Tracks σ (σ.become i c,es) (σ.become i c).holds :=
  tracksBecome (tracksQuiet tracksRefl quiet rfl) rfl mine (fun _ _ => rfl)

theorem validSome {fd : Int} (some' : 0 ≤ fd) : valid fd = [fd] := if_pos some'

theorem derivedPc (c : Client) (pc : Pc) : ({c with pc := pc} : Client).derivedFd = c.derivedFd := rfl

theorem listenerDerived {c : Client} (listens : c.kind.listener = true) : c.derivedFd = -1 := by
  cases kind : c.kind <;> simp [kind,Kind.listener,Client.derivedFd] at listens ⊢

theorem dispatchDerived {kind : Kind} {t : Token} {fd : Int} {pc : Pc} (listens : kind.listener = true) :
    (⟨kind.dispatch,t,-1,fd,pc⟩ : Client).derivedFd = fd := by
  cases kind <;> first | rfl | contradiction

theorem tracksGoes (shaped : Shaped σ) (calm : Undisturbed σ a) (goes : Goes h σ a out) :
    Tracks σ out out.1.holds := by
  cases goes with
  | @spawns kind token top =>
    refine tracksBecome (tracksQuiet tracksRefl rfl rfl) rfl ?_ (fun _ _ => rfl)
    rw [holdsIdle (by rw [shaped.fresh _ (Nat.le_refl _)]; rfl)]
    cases kind <;> exact .refl _
  | @leaves a i es runs alone hears =>
    exact tracksLeaves (tracksQuiet tracksRefl (hearsQuiet hears) rfl) rfl runs alone
  | @fails a i fd pc valid free =>
    exact tracksFails (by simp [pc,Pc.extra]) (by simp [pc,Pc.runs]) valid free rfl
  | @connecting a i fd pc client valid free =>
    have runs : (σ.client i).pc.runs = true := by simp [pc,Pc.runs]
    refine tracksTakes valid free rfl ?_
    rw [holdsRuns runs,pc]
    exact .refl _
  | @listening a i fd pc listens valid free =>
    have runs : (σ.client i).pc.runs = true := by simp [pc,Pc.runs]
    have unset := (shaped.shape i).unset (by simp [pc,Pc.based]) runs
    have underived := listenerDerived listens
    refine tracksTakes valid free rfl ?_
    rw [holdsRuns runs,pc,underived,unset]
    simp only [Client.holds,Pc.runs,Pc.extra,if_true,List.nil_append]
    rw [show ({σ.client i with baseFd := fd, pc := .accepting} : Client).derivedFd = -1 from underived,validSome valid]
    exact .refl _
  | @loses a i fd extra => exact tracksLoses tracksRefl rfl extra
  | @connected a i fd pc here next =>
    have runs : (σ.client i).pc.runs = true := by simp [here,Pc.runs]
    have unset := (shaped.shape i).unset (by simp [here,Pc.based]) runs
    have place : pc.runs = true ∧ pc.extra = [] := by
      subst next
      split <;> exact ⟨rfl,rfl⟩
    refine tracksSame rfl ?_
    rw [holdsRuns runs,here,unset]
    simp only [Client.holds,place.1,place.2,if_true,List.nil_append,validSome ((shaped.shape i).connects fd here)]
    show (valid (σ.client i).derivedFd ++ [fd]).Perm ([fd] ++ (valid (σ.client i).derivedFd ++ []))
    rw [List.append_nil]
    exact List.perm_append_comm
  | @reached a i lfd pc =>
    refine tracksSame rfl ?_
    rw [holdsRuns (by simp [pc,Pc.runs]),pc]
    exact .refl _
  | @sends i n bytes sent k piece positive room valid =>
    obtain ⟨_,runs,alone,_,runs',alone',_,_⟩ := pieceAdvance piece n
    refine tracksSame rfl ?_
    rw [holdsRuns runs,alone]
    simp [Client.holds,runs',alone',derivedPc]
  | @speaks a i pc es spoken =>
    obtain ⟨_,runs,alone,_,runs',alone',_,quiet⟩ := speaksPlace spoken
    refine tracksSame quiet ?_
    rw [holdsRuns runs,alone]
    simp [Client.holds,runs',alone',derivedPc]
  | @gives a i es ready kind =>
    obtain ⟨runs,alone⟩ := encryptedPlace ready
    have underived : (σ.client i).derivedFd = -1 := by simp [Client.derivedFd,kind]
    have hands : σ.holds i = [(σ.client i).baseFd] := by
      rw [holdsRuns runs,alone,underived,validSome ((shaped.shape i).based (encryptedBased ready))]
      rfl
    have given : Tracks σ ({σ with table := σ.table.give (σ.client i).baseFd},
        es ++ [.descriptor (.given i (σ.client i).baseFd (σ.table.fds (σ.client i).baseFd))])
        (Function.update σ.holds i []) := by
      have step : Custody.Moves (2 < ·) σ.table σ.holds
          [.given i (σ.client i).baseFd (σ.table.fds (σ.client i).baseFd)] (σ.table.give (σ.client i).baseFd)
          (Function.update σ.holds i []) := .gives (by rw [hands,Function.update_self]) apartUpdate
      unfold Tracks
      rwa [custodyAppend,hearsQuiet (encryptedHears ready)]
    refine tracksBecome (i := i) (tracksQuiet given rfl rfl) rfl ?_ (fun j other => Function.update_of_ne other _ _)
    rw [Function.update_self]
    simp only [Client.holds,Pc.runs,Pc.extra,if_true,List.nil_append]
    rw [show ({σ.client i with baseFd := -1, pc := .serving} : Client).derivedFd = -1 from underived]
    exact .refl _
  | @dials a i lfd info target pc kind size allowed valid free =>
    have runs : (σ.client i).pc.runs = true := by simp [pc,Pc.runs]
    refine tracksTakes valid free rfl ?_
    rw [holdsRuns runs,pc]
    exact .refl _
  | @shell a i pfd info pc kind valid free =>
    have runs : (σ.client i).pc.runs = true := by simp [pc,Pc.runs]
    refine tracksTakes valid free rfl ?_
    rw [holdsRuns runs,pc]
    exact .refl _
  | @noShell a i pfd info pc kind valid free =>
    exact tracksFails (by simp [pc,Pc.extra]) (by simp [pc,Pc.runs]) valid free rfl
  | relays pc valid => exact tracksQuiet tracksRefl rfl rfl
  | @accepts a i fd pc valid free =>
    refine tracksBecome (i := σ.count) (tracksQuiet (tracksAcquire valid free) rfl rfl) rfl ?_
      (fun j other => Function.update_of_ne other _ _)
    rw [Function.update_self,holdsIdle (by rw [shaped.fresh _ (Nat.le_refl _)]; rfl)]
    simp only [Client.holds,Pc.runs,Pc.extra,if_true,List.nil_append]
    rw [dispatchDerived ((shaped.shape i).listens pc),validSome valid]
    exact .refl _
  | @drops a i fd pc valid free =>
    have closed := tracksClose i fd (σ.holds i) (tracksAcquire valid free)
      (by rw [Function.update_self])
    rwa [Function.update_idem,Function.update_eq_self] at closed
  | @opens fd valid free => exact .otherOpens valid free
  | @closes fd k on =>
    refine .otherCloses calm.1 on ?_
    simpa [on] using calm.2

end shape

section runs
variable {h : Host} {ok : Process → Action → Prop} {σ : Process} {log : Log Process Event}

theorem shapedRun (run : Run (machine h) ok σ log) : Shaped σ := by
  refine runInvariant (P := fun σ _ => Shaped σ) ?_ ?_ run
  · refine ⟨fun _ _ => rfl,fun _ => ⟨?_,?_,?_,?_,?_,?_⟩⟩ <;> simp [machine,init,Pc.runs,Pc.based]
  · intro s log a s' es _ _ taken shaped
    exact shapedGoes shaped (stepGoes taken)

theorem keptInit : Kept stdTable init.holds [] := by
  have empty : Kept (H := Nat) .empty init.holds [] := keptEmpty (fun _ => rfl)
  have moves : Custody.Moves (2 < ·) Custody.Table.empty init.holds [] stdTable init.holds :=
    .trans (.trans (.otherOpens (by decide) rfl) (.otherOpens (by decide) rfl)) (.otherOpens (by decide) rfl)
  exact keptMoves moves empty

theorem keptRun (calm : ∀ σ a, ok σ a → Undisturbed σ a) (run : Run (machine h) ok σ log) :
    Kept σ.table σ.holds (custodyLog log) := by
  refine runInvariant (P := fun σ log => Kept σ.table σ.holds (custodyLog log)) keptInit ?_ run
  intro s log a s' es run allowed taken kept
  rw [custodyNext]
  exact keptMoves (tracksGoes (shapedRun run) (calm _ _ allowed) (stepGoes taken)) kept

structure Returns (σ : Process) (L : List (Custody.Event Nat)) (i : Nat) : Prop where
  own : ∀ e ∈ L, ∀ k, e.returns = some (i,k) → ∃ n fd, k = some n ∧ .opened i fd n ∈ L
  once : ∀ fd k, .opened i fd k ∈ L → endings k L ≤ 1
  all : (σ.client i).pc = .ended → ∀ fd k, .opened i fd k ∈ L → endings k L = 1
  open' : ∀ fd ∈ σ.holds i, ∃ k fd', σ.table.fds fd = some k ∧ .opened i fd' k ∈ L

/- A client closes or hands over only what was opened for it, each at most once, and when
it has ended there is nothing left of it; until then its descriptors are its own. -/
theorem clientReturns (h : Host) (σ : Process) (log : Log Process Event)
    (run : Run (machine h) Undisturbed σ log) (i : Nat) : Returns σ (custodyLog log) i := by
  have kept := keptRun (fun _ _ calm => calm) run
  refine ⟨fun e mem k is => kept.own e mem i k is,fun fd k opened => keptOnce kept opened,fun ended fd k opened => ?_,
    fun fd mem => ?_⟩
  · exact keptReturned kept (holdsIdle (by rw [ended]; rfl)) opened
  · obtain ⟨_,k,on,own⟩ := kept.held i fd mem
    obtain ⟨_,fd',opened⟩ := kept.owned k i own
    exact ⟨k,fd',on,opened⟩

def sevens : Token := ⟨List.replicate 16 7,rfl⟩

def loopbackHost (key : Option Key) : Host where
  config := {Config.configNew with
    token := some (TokenText.tokenToString sevens), remoteAddress := some Config.loopback, remotePort := 80,
    addrList := [⟨0,1,.zero,0⟩]}
  key := key
  inetPton := Inet.inetPton
  order := .little

def Results.plain (fd : Option Int) : Results := ⟨true,true,List.replicate 8 9,⟨24,80⟩,fd⟩

/- A listener takes a connection; its connector says its piece, relays and goes, and the
two numbers are used again by others. -/
def listenOnce : List Action :=
  [.spawn .portListen .zero,.listens 0 3 true,.accept 0 4 true,.socket 1 5 true,.connectReturn 1 0,
    .send 1 2,.sendReturn 1 2 (.plain none),.send 1 16,.sendReturn 1 16 (.plain none),
    .send 1 19,.sendReturn 1 19 (.plain none),.relay 1 true [104,105],.relay 1 false [111],.spliceReturn 1,
    .opens 5,.closes 5]

theorem clientReturnsListen : ∃ σ log, Run (machine (loopbackHost none)) Undisturbed σ log ∧
    (σ.client 1).pc = .ended ∧ endings 4 (custodyLog log) = 1 ∧ endings 5 (custodyLog log) = 1 := by
  obtain ⟨σ,log,run,shows⟩ := replayReaches (machine (loopbackHost none)) Undisturbed listenOnce
    (fun (σ,log) => (σ.client 1).pc = .ended ∧ .opened 1 4 4 ∈ custodyLog log ∧
        .opened 1 5 5 ∈ custodyLog log)
    (by decide +kernel)
  obtain ⟨ended,taken,base⟩ := of_decide_eq_true shows
  have returns := clientReturns _ σ log run 1
  exact ⟨σ,log,run,ended,returns.all ended 4 4 taken,returns.all ended 5 5 base⟩

end runs

end HevFsh.ClientTask
