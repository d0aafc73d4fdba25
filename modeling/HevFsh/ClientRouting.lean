import HevFsh.ClientStream

/-! Whose bytes a connection carries. A client writes to numbers; the base connection
of one client is written to by that client only, and by it as its base. -/
namespace HevFsh.ClientTask
open Protocol Transitions Custody

def Event.connection : Event → Option (Nat × Nat)
  | .connected i (some k) => some (i,k)
  | _ => none

def connections (log : Log Process Event) : List (Nat × Nat) := log.filterMap (fun e => e.2.connection)

def Event.onto (k : Nat) : Event → Bytes
  | .sent _ n bytes => if n = k then bytes else []
  | .relayed _ _ n data => if n = k then data else []
  | _ => []

def onto (k : Nat) (log : Log Process Event) : Bytes := log.flatMap (fun e => e.2.onto k)

def Event.upOn : Event → Option (Nat × Nat)
  | .sent i k _ | .relayed i true k _ => some (i,k)
  | _ => none

def Event.downOn : Event → Option (Nat × Nat)
  | .relayed i false k _ => some (i,k)
  | _ => none

def Pc.early : Pc → Bool
  | .absent | .ready | .connecting _ => true
  | _ => false

structure Routed (σ : Process) (log : Log Process Event) : Prop where
  std : σ.table.fds 1 = some 1 ∧ σ.table.owner 1 = none ∧ 3 ≤ σ.table.count
  above : ∀ i fd k, .opened i fd k ∈ custodyLog log → 3 ≤ k
  early : ∀ i k, (i,k) ∈ connections log → (σ.client i).pc.early = false
  opened : ∀ i k, (i,k) ∈ connections log → ∃ fd, .opened i fd k ∈ custodyLog log
  single : ∀ i k n, (i,k) ∈ connections log → (i,n) ∈ connections log → k = n
  base : ∀ i, (σ.client i).pc.based = true → (σ.client i).pc ≠ .accepting →
    ∃ k, σ.table.fds (σ.client i).baseFd = some k ∧ σ.table.owner k = some i ∧ (i,k) ∈ connections log
  ups : ∀ e ∈ log, ∀ i k, e.2.upOn = some (i,k) → (i,k) ∈ connections log
  downs : ∀ e ∈ log, ∀ i k, e.2.downOn = some (i,k) → (σ.client i).pc.early = false ∧
    (i,k) ∉ connections log ∧ (k < 3 ∨ ∃ fd, .opened i fd k ∈ custodyLog log)

section routes
variable {h : Host} {σ : Process} {i : Nat} {a : Action} {out : Out} {es : List Event}
  {log : Log Process Event} {c : Client}

inductive Routes (σ : Process) (out : Out) : Prop where
  | quiet (none' : ∀ e ∈ out.2, e.connection = none ∧ e.upOn = none ∧ e.downOn = none)
  | connects {i fd k} (here : (σ.client i).pc = .connecting fd) (on : σ.table.fds fd = some k)
      (own : σ.table.owner k = some i) (entry : out.2 = [.connected i (some k)])
      (late : (out.1.client i).pc.early = false)
  | up {i k e} (based : (σ.client i).pc.based = true) (other : (σ.client i).pc ≠ .accepting)
      (on : σ.table.fds (σ.client i).baseFd = some k) (entry : out.2 = [e]) (is : e.upOn = some (i,k))
      (no : e.connection = none ∧ e.downOn = none)
  | down {i ifd ofd own k e} (pc : (σ.client i).pc = .relay ifd ofd own) (on : σ.table.fds ofd = some k)
      (entry : out.2 = [e]) (is : e.downOn = some (i,k)) (no : e.connection = none ∧ e.upOn = none)

def Event.plain (e : Event) : Prop := e.connection = none ∧ e.upOn = none ∧ e.downOn = none

theorem closePlain {fd : Int} (plain : ∀ e ∈ out.2, e.plain) : ∀ e ∈ (close i fd out).2, e.plain := by
  intro e mem
  rcases List.mem_append.mp mem with old | new
  · exact plain e old
  · rw [List.mem_singleton.mp new]
    exact ⟨rfl,rfl,rfl⟩

theorem closeValidPlain {fd : Int} (plain : ∀ e ∈ out.2, e.plain) : ∀ e ∈ (closeValid i fd out).2, e.plain := by
  unfold closeValid
  split
  · exact closePlain plain
  · exact plain

theorem unrefPlain (plain : ∀ e ∈ out.2, e.plain) : ∀ e ∈ (unref i out).2, e.plain :=
  closeValidPlain (closeValidPlain plain)

theorem hearsPlain (hears : Hears h σ i es) : ∀ e ∈ es, e.plain := by
  cases hears <;> simp [Event.plain,Event.connection,Event.upOn,Event.downOn]

theorem speaksPlain {pc : Pc} (spoken : Speaks h σ i a pc es) : ∀ e ∈ es, e.plain := by
  cases spoken with
  | begins ready next => exact hearsPlain (encryptedHears ready)
  | _ => simp [Event.plain,Event.connection,Event.upOn,Event.downOn]

theorem acquirePlain {fd : Int} : ∀ e ∈ (acquire σ i fd).2, e.plain := by
  simp [acquire,Event.plain,Event.connection,Event.upOn,Event.downOn]

theorem routesGoes (kept : Kept σ.table σ.holds (custodyLog log)) (goes : Goes h σ a out) : Routes σ out := by
  cases goes with
  | spawns top => exact .quiet (by simp)
  | leaves runs alone hears => exact .quiet (unrefPlain (hearsPlain hears))
  | fails pc valid free => exact .quiet (unrefPlain (closePlain acquirePlain))
  | connecting pc client valid free => exact .quiet acquirePlain
  | listening pc listens valid free => exact .quiet acquirePlain
  | loses extra => exact .quiet (unrefPlain (closePlain (by simp)))
  | @connected a i fd pc here next =>
    have mem : fd ∈ σ.holds i := by
      rw [holdsRuns (by simp [here,Pc.runs]),here]
      exact List.mem_append_left _ List.mem_cons_self
    obtain ⟨_,k,on,own⟩ := kept.held i fd mem
    refine .connects here on own (by rw [on]) ?_
    subst next
    split <;> simp [Process.become,Pc.early]
  | reached pc => exact .quiet (by simp)
  | sends piece positive room valid =>
    obtain ⟨based,_,_,_,_,_,_,_⟩ := pieceAdvance piece 0
    refine .up based (fun pc => ?_) valid rfl rfl ⟨rfl,rfl⟩
    simp [Client.piece,pc] at piece
  | speaks spoken => exact .quiet (speaksPlain spoken)
  | gives ready kind =>
    refine .quiet (fun e mem => ?_)
    rcases List.mem_append.mp mem with old | new
    · exact hearsPlain (encryptedHears ready) e old
    · rw [List.mem_singleton.mp new]
      exact ⟨rfl,rfl,rfl⟩
  | dials pc kind size allowed valid free =>
    exact .quiet (by simp [acquire,Event.connection,Event.upOn,Event.downOn])
  | shell pc kind valid free => exact .quiet (by simp [acquire,Event.connection,Event.upOn,Event.downOn])
  | noShell pc kind valid free =>
    exact .quiet (unrefPlain (closePlain (by simp [acquire,Event.plain,Event.connection,Event.upOn,Event.downOn])))
  | @relays a i ifd ofd own k data toBase pc valid =>
    cases toBase with
    | true => exact .up (by simp [pc,Pc.based]) (by simp [pc]) valid rfl rfl ⟨rfl,rfl⟩
    | false => exact .down pc valid rfl rfl ⟨rfl,rfl⟩
  | accepts pc valid free => exact .quiet acquirePlain
  | drops pc valid free => exact .quiet (closePlain acquirePlain)
  | opens valid free => exact .quiet (by simp)
  | closes on => exact .quiet (by simp)

structure Lane (σ : Process) (out : Out) (j : Nat) : Prop where
  early : (out.1.client j).pc.early = true → (σ.client j).pc.early = true
  based : (out.1.client j).pc.based = true → (out.1.client j).pc ≠ .accepting →
    ((σ.client j).pc.based = true ∧ (σ.client j).pc ≠ .accepting ∧
        (out.1.client j).baseFd = (σ.client j).baseFd ∧
      ∀ e ∈ custody out.2, ∀ k, e.returns ≠ some (j,k)) ∨
    ∃ fd, (σ.client j).pc = .connecting fd ∧ (out.1.client j).baseFd = fd ∧
      out.2 = [.connected j (σ.table.fds fd)] ∧ out.1.table = σ.table

def Sole (i : Nat) (es : List Event) : Prop := ∀ e ∈ custody es, ∀ j k, e.returns = some (j,k) → j = i

theorem soleOf (none' : ∀ e ∈ custody es, e.returns = none) : Sole i es := by
  intro e mem j k is
  rw [none' e mem] at is
  contradiction

theorem soleQuiet (quiet : custody es = []) : Sole i es := by
  intro e mem
  rw [quiet] at mem
  simp at mem

theorem soleClose {fd : Int} (sole : Sole i out.2) : Sole i (close i fd out).2 := by
  intro e mem j k is
  rw [close,custodyAppend] at mem
  rcases List.mem_append.mp mem with old | new
  · exact sole e old j k is
  · cases List.mem_singleton.mp new
    cases is
    rfl

theorem soleUnref (sole : Sole i out.2) : Sole i (unref i out).2 := by
  have valid : ∀ {fd : Int} {out : Out}, Sole i out.2 → Sole i (closeValid i fd out).2 := by
    intro fd out sole
    unfold closeValid
    split
    · exact soleClose sole
    · exact sole
  exact valid (valid sole)

theorem laneOne {j : Nat} (client : out.1.client = Function.update σ.client i c) (sole : Sole i out.2)
    (early : c.pc.early = true → (σ.client i).pc.early = true)
    (based : c.pc.based = true → c.pc ≠ .accepting →
      ((σ.client i).pc.based = true ∧ (σ.client i).pc ≠ .accepting ∧ c.baseFd = (σ.client i).baseFd ∧
        ∀ e ∈ custody out.2, e.returns = none) ∨
      ∃ fd, (σ.client i).pc = .connecting fd ∧ c.baseFd = fd ∧
        out.2 = [.connected i (σ.table.fds fd)] ∧ out.1.table = σ.table) : Lane σ out j := by
  by_cases same : j = i
  · subst same
    refine ⟨?_,?_⟩
    · rw [client,Function.update_self]
      exact early
    · rw [client,Function.update_self]
      intro is other
      rcases based is other with ⟨was,apart,base,none'⟩ | connects
      · refine .inl ⟨was,apart,base,fun e mem k => ?_⟩
        rw [none' e mem]
        simp
      · exact .inr connects
  · refine ⟨?_,?_⟩
    · rw [client,Function.update_of_ne same]
      exact id
    · rw [client,Function.update_of_ne same]
      exact fun is other => .inl ⟨is,other,rfl,fun e mem k returns => same (sole e mem j k returns)⟩

theorem laneSame {j : Nat} (client : out.1.client = σ.client)
    (returns : ∀ e ∈ custody out.2, ∀ j k, e.returns = some (j,k) → (σ.client j).pc = .accepting) :
    Lane σ out j := by
  refine ⟨?_,?_⟩
  · rw [client]
    exact id
  · rw [client]
    exact fun is other => .inl ⟨is,other,rfl,fun e mem k same => other (returns e mem j k same)⟩

theorem laneEnds {j : Nat} (client : out.1.client = σ.client) (sole : Sole i out.2) : Lane σ (unref i out) j := by
  refine laneOne (i := i) (c := {out.1.client i with pc := .ended}) (by rw [unrefClient,client]) (soleUnref sole)
    ?_ ?_ <;> simp [Pc.early,Pc.based]

theorem acquireReturns {fd : Int} : ∀ e ∈ custody (acquire σ i fd).2, e.returns = none := by
  simp [acquire,custody,Event.custody,Custody.Event.returns]

theorem speaksApart {pc : Pc} (spoken : Speaks h σ i a pc es) : (σ.client i).pc ≠ .accepting := by
  cases spoken with
  | begins ready next =>
    cases ready with
    | plain pc positive open' => rcases pc with ⟨t,n,pc⟩ | ⟨n,pc⟩ <;> simp [pc]
    | keyed pc size agreed => simp [pc]
  | seals pc positive agreed size => rcases pc with ⟨t,n,pc⟩ | ⟨n,pc⟩ <;> simp [pc]
  | token pc positive token => simp [pc]
  | sealed pc positive agreed => simp [pc]
  | informed pc positive => simp [pc]

theorem laneGoes (shaped : Shaped σ) (goes : Goes h σ a out) (j : Nat) : Lane σ out j := by
  have absent := shaped.fresh σ.count (Nat.le_refl _)
  cases goes with
  | @spawns kind token top =>
    refine laneOne (i := σ.count) (c := ⟨kind,token,-1,-1,.ready⟩) rfl (soleQuiet rfl) ?_ ?_ <;>
      simp [Pc.early,Pc.based,absent]
  | @leaves a i es runs alone hears => exact laneEnds rfl (soleQuiet (hearsQuiet hears))
  | @fails a i fd pc valid free => exact laneEnds rfl (soleClose (soleOf acquireReturns))
  | @connecting a i fd pc client valid free =>
    refine laneOne (i := i) (c := {σ.client i with pc := .connecting fd}) rfl (soleOf acquireReturns) ?_ ?_ <;>
      simp [Pc.early,Pc.based,pc]
  | @listening a i fd pc listens valid free =>
    refine laneOne (i := i) (c := {σ.client i with baseFd := fd, pc := .accepting}) rfl (soleOf acquireReturns)
      ?_ ?_ <;> simp [Pc.early]
  | @loses a i fd extra => exact laneEnds rfl (soleClose (soleQuiet rfl))
  | @connected a i fd pc here next =>
    refine laneOne (i := i) (c := {σ.client i with baseFd := fd, pc := pc}) rfl (soleQuiet rfl) ?_ ?_
    · subst next
      split <;> simp [Pc.early]
    · exact fun _ _ => .inr ⟨fd,here,rfl,rfl,rfl⟩
  | @reached a i lfd pc =>
    refine laneOne (i := i) (c := {σ.client i with pc := .relay lfd lfd (some lfd)}) rfl (soleQuiet rfl) ?_ ?_
    · simp [Pc.early]
    · exact fun _ _ => .inl ⟨by simp [pc,Pc.based],by simp [pc],rfl,by simp [custody]⟩
  | @sends i n bytes sent k piece positive room valid =>
    obtain ⟨based,_,_,based',_,_,_,_⟩ := pieceAdvance piece n
    have apart : (σ.client i).pc ≠ .accepting := fun pc => by simp [Client.piece,pc] at piece
    refine laneOne (i := i) (c := {σ.client i with pc := (σ.client i).pc.advance n}) rfl (soleQuiet rfl) ?_ ?_
    · cases pc : (σ.client i).pc <;> simp_all [Pc.early,Pc.advance,Pc.based]
    · exact fun _ _ => .inl ⟨based,apart,rfl,by simp [custody,Event.custody]⟩
  | @speaks a i pc es spoken =>
    obtain ⟨based,_,_,based',_,_,_,quiet⟩ := speaksPlace spoken
    refine laneOne (i := i) (c := {σ.client i with pc := pc}) rfl (soleQuiet quiet) ?_ ?_
    · cases pc <;> simp_all [Pc.early,Pc.based]
    · exact fun _ _ => .inl ⟨based,speaksApart spoken,rfl,by simp [quiet]⟩
  | @gives a i es ready kind =>
    refine laneOne (i := i) (c := {σ.client i with baseFd := -1, pc := .serving}) rfl ?_ ?_ ?_
    · intro e mem j' k is
      rw [custodyAppend,hearsQuiet (encryptedHears ready),List.nil_append] at mem
      cases List.mem_singleton.mp mem
      cases is
      rfl
    · simp [Pc.early]
    · simp [Pc.based]
  | @dials a i lfd info target pc kind size allowed valid free =>
    refine laneOne (i := i) (c := {σ.client i with pc := .dialing lfd}) rfl (soleOf acquireReturns) ?_ ?_
    · simp [Pc.early]
    · exact fun _ _ => .inl ⟨by simp [pc,Pc.based],by simp [pc],rfl,acquireReturns⟩
  | @shell a i pfd info pc kind valid free =>
    refine laneOne (i := i) (c := {σ.client i with pc := .relay pfd pfd (some pfd)}) rfl (soleOf acquireReturns) ?_ ?_
    · simp [Pc.early]
    · exact fun _ _ => .inl ⟨by simp [pc,Pc.based],by simp [pc],rfl,acquireReturns⟩
  | @noShell a i pfd info pc kind valid free => exact laneEnds rfl (soleClose (soleOf acquireReturns))
  | relays pc valid => exact laneSame rfl (by simp [custody,Event.custody])
  | @accepts a i fd pc valid free =>
    refine laneOne (i := σ.count) (c :=
        ⟨(σ.client i).kind.dispatch,.zero,-1,fd,.ready⟩) rfl (soleOf acquireReturns)
      ?_ ?_ <;> simp [Pc.early,Pc.based,absent]
  | @drops a i fd pc valid free =>
    refine laneSame rfl (fun e mem j' k is => ?_)
    rw [soleClose (soleOf acquireReturns) e mem j' k is]
    exact pc
  | opens valid free => exact laneSame rfl (by simp [custody])
  | closes on => exact laneSame rfl (by simp [custody])

theorem connectionsNext : connections (log ++ es.map (σ,·)) = connections log ++ es.filterMap Event.connection := by
  simp [connections,List.filterMap_map]

theorem connectionsOld (routes : Routes σ out) {j n : Nat}
    (mem : (j,n) ∈ connections (log ++ out.2.map (σ,·))) : (j,n) ∈ connections log ∨
      ∃ fd, (σ.client j).pc = .connecting fd ∧ σ.table.fds fd = some n ∧ σ.table.owner n = some j ∧
        (out.1.client j).pc.early = false := by
  rw [connectionsNext] at mem
  rcases List.mem_append.mp mem with old | new
  · exact .inl old
  · obtain ⟨e,inside,is⟩ := List.mem_filterMap.mp new
    cases routes with
    | quiet none' =>
      rw [(none' e inside).1] at is
      contradiction
    | connects here on own entry late =>
      rw [entry] at inside
      rw [List.mem_singleton.mp inside] at is
      cases is
      exact .inr ⟨_,here,on,own,late⟩
    | up based other on entry up no =>
      rw [entry] at inside
      rw [List.mem_singleton.mp inside,no.1] at is
      contradiction
    | down pc on entry down no =>
      rw [entry] at inside
      rw [List.mem_singleton.mp inside,no.1] at is
      contradiction

theorem connectionsMono {j n : Nat} (mem : (j,n) ∈ connections log) :
    (j,n) ∈ connections (log ++ es.map (σ,·)) := by
  rw [connectionsNext]
  exact List.mem_append_left _ mem

theorem relayAside (shaped : Shaped σ) (kept : Kept σ.table σ.holds (custodyLog log)) (inv : Routed σ log)
    {ifd ofd : Int} {own : Option Int} {k : Nat} (pc : (σ.client i).pc = .relay ifd ofd own)
    (on : σ.table.fds ofd = some k) :
    (i,k) ∉ connections log ∧ (k < 3 ∨ ∃ fd, .opened i fd k ∈ custodyLog log) := by
  have based : (σ.client i).pc.based = true := by simp [pc,Pc.based]
  have hands := holdsRuns (σ := σ) (i := i) (by simp [pc,Pc.runs])
  rw [← List.append_assoc,validSome ((shaped.shape i).based based)] at hands
  rcases (shaped.shape i).aims ifd ofd own pc with rfl | mem
  · rw [inv.std.1] at on
    cases on
    refine ⟨fun mem => ?_,.inl (by decide)⟩
    obtain ⟨fd,opened⟩ := inv.opened i 1 mem
    exact absurd (inv.above i fd 1 opened) (by decide)
  · have held : ofd ∈ σ.holds i := by
      rw [hands]
      exact List.mem_append_left _ mem
    obtain ⟨_,n,on',own'⟩ := kept.held i ofd held
    rw [on] at on'
    cases on'
    obtain ⟨_,fd,opened⟩ := kept.owned k i own'
    refine ⟨fun connected => ?_,.inr ⟨fd,opened⟩⟩
    obtain ⟨n,baseOn,_,connected'⟩ := inv.base i based (by simp [pc])
    cases inv.single i k n connected connected'
    have same : ofd = (σ.client i).baseFd := kept.single _ _ _ on baseOn
    have distinct := kept.once i
    rw [hands] at distinct
    exact (List.nodup_append.mp distinct).2.2 ofd mem _ (List.mem_singleton_self _) same

theorem openedMono {i k : Nat} {fd : Int} (mem : .opened i fd k ∈ custodyLog log) :
    .opened i fd k ∈ custodyLog (log ++ es.map (σ,·)) := by
  rw [custodyNext]
  exact List.mem_append_left _ mem

theorem aboveNext (inv : Routed σ log) (move : Tracks σ out out.1.holds) :
    ∀ j fd k, .opened j fd k ∈ custodyLog (log ++ out.2.map (σ,·)) → 3 ≤ k := by
  intro j fd k mem
  rw [custodyNext] at mem
  rcases List.mem_append.mp mem with old | new
  · exact inv.above j fd k old
  · exact Nat.le_trans inv.std.2.2 ((movesStarts move).2 _ new k rfl)

theorem stdNext (kept : Kept σ.table σ.holds (custodyLog log)) (inv : Routed σ log)
    (move : Tracks σ out out.1.holds) :
    out.1.table.fds 1 = some 1 ∧ out.1.table.owner 1 = none ∧ 3 ≤ out.1.table.count := by
  rcases movesStay move kept inv.std.1 inv.std.2.1 with ⟨e,mem,ends⟩ | ⟨low,_⟩ | ⟨on,own⟩
  · obtain ⟨j,returns⟩ := endsReturns ends
    obtain ⟨n,fd,same,opened⟩ := (keptMoves move kept).own e (List.mem_append_right _ mem) j _ returns
    cases same
    exact absurd (aboveNext inv move j fd 1 (by rw [custodyNext]; exact opened)) (by decide)
  · exact absurd low (by decide)
  · exact ⟨on,own,Nat.le_trans inv.std.2.2 (movesStarts move).1⟩

theorem lateLane {j : Nat} (lane : Lane σ out j) (was : (σ.client j).pc.early = false) :
    (out.1.client j).pc.early = false := by
  cases now : (out.1.client j).pc.early with
  | false => rfl
  | true =>
    rw [lane.early now] at was
    contradiction

theorem singleNext (inv : Routed σ log) (routes : Routes σ out) {j k n : Nat}
    (mem : (j,k) ∈ connections (log ++ out.2.map (σ,·))) (mem' : (j,n) ∈ connections (log ++ out.2.map (σ,·))) :
    k = n := by
  have apart : ∀ k fd, (j,k) ∈ connections log → (σ.client j).pc ≠ .connecting fd := by
    intro k fd old pc
    have early := inv.early j k old
    rw [pc] at early
    contradiction
  rcases connectionsOld routes mem with old | ⟨fd,here,on,_,_⟩ <;>
    rcases connectionsOld routes mem' with old' | ⟨fd',here',on',_,_⟩
  · exact inv.single j k n old old'
  · exact absurd here' (apart k fd' old)
  · exact absurd here (apart n fd old')
  · rw [here] at here'
    cases here'
    rw [on] at on'
    exact Option.some.inj on'

theorem baseNext (kept : Kept σ.table σ.holds (custodyLog log)) (inv : Routed σ log)
    (move : Tracks σ out out.1.holds) {j : Nat} (lane : Lane σ out j) (based : (out.1.client j).pc.based = true)
    (other : (out.1.client j).pc ≠ .accepting) : ∃ k, out.1.table.fds (out.1.client j).baseFd = some k ∧
      out.1.table.owner k = some j ∧ (j,k) ∈ connections (log ++ out.2.map (σ,·)) := by
  rcases lane.based based other with ⟨was,apart,base,returns⟩ | ⟨fd,here,base,entry,table⟩
  · obtain ⟨k,on,own,mem⟩ := inv.base j was apart
    rw [base]
    rcases movesStay move kept on own with ⟨e,inside,ends⟩ | ⟨_,none'⟩ | ⟨on',own'⟩
    · -- what ends the connection is the client's own doing
      obtain ⟨j',is⟩ := endsReturns ends
      have kept' := keptMoves move kept
      obtain ⟨n,fd,same,opened⟩ := kept'.own e (List.mem_append_right _ inside) j' _ is
      cases same
      obtain ⟨fd',opened'⟩ := inv.opened j k mem
      cases kept'.unique j' j fd fd' k opened (List.mem_append_left _ opened')
      exact absurd is (returns e inside _)
    · contradiction
    · exact ⟨k,on',own',connectionsMono mem⟩
  · have held : fd ∈ σ.holds j := by
      rw [holdsRuns (by simp [here,Pc.runs]),here]
      exact List.mem_append_left _ List.mem_cons_self
    obtain ⟨_,k,on,own⟩ := kept.held j fd held
    refine ⟨k,by rw [base,table,on],by rw [table,own],?_⟩
    rw [connectionsNext,entry,on]
    exact List.mem_append_right _ List.mem_cons_self

theorem upsNext (inv : Routed σ log) (routes : Routes σ out) {e : Event} (mem : e ∈ out.2) {j k : Nat}
    (is : e.upOn = some (j,k)) : (j,k) ∈ connections log := by
  cases routes with
  | quiet none' =>
    rw [(none' e mem).2.1] at is
    contradiction
  | connects here on own entry late =>
    rw [entry] at mem
    rw [List.mem_singleton.mp mem] at is
    contradiction
  | up based other on entry up no =>
    rw [entry] at mem
    rw [List.mem_singleton.mp mem,up] at is
    cases is
    obtain ⟨n,on',_,mem'⟩ := inv.base j based other
    rw [on] at on'
    cases on'
    exact mem'
  | down pc on entry down no =>
    rw [entry] at mem
    rw [List.mem_singleton.mp mem,no.2] at is
    contradiction

theorem downsNext (shaped : Shaped σ) (kept : Kept σ.table σ.holds (custodyLog log)) (inv : Routed σ log)
    (routes : Routes σ out) {e : Event} (mem : e ∈ out.2) {j k : Nat} (is : e.downOn = some (j,k)) :
    (σ.client j).pc.early = false ∧ (j,k) ∉ connections log ∧
    (k < 3 ∨ ∃ fd, .opened j fd k ∈ custodyLog log) := by
  cases routes with
  | quiet none' =>
    rw [(none' e mem).2.2] at is
    contradiction
  | connects here on own entry late =>
    rw [entry] at mem
    rw [List.mem_singleton.mp mem] at is
    contradiction
  | up based other on entry up no =>
    rw [entry] at mem
    rw [List.mem_singleton.mp mem,no.2] at is
    contradiction
  | down pc on entry down no =>
    rw [entry] at mem
    rw [List.mem_singleton.mp mem,down] at is
    cases is
    exact ⟨by simp [pc,Pc.early],relayAside shaped kept inv pc on⟩

theorem routedNext (shaped : Shaped σ) (calm : Undisturbed σ a) (kept : Kept σ.table σ.holds (custodyLog log))
    (goes : Goes h σ a out) (inv : Routed σ log) : Routed out.1 (log ++ out.2.map (σ,·)) := by
  have move := tracksGoes shaped calm goes
  have routes := routesGoes kept goes
  have lane := laneGoes shaped goes
  have opened : ∀ j k, (j,k) ∈ connections (log ++ out.2.map (σ,·)) →
      ∃ fd, .opened j fd k ∈ custodyLog log := by
    intro j k mem
    rcases connectionsOld routes mem with old | ⟨fd,here,on,own,_⟩
    · exact inv.opened j k old
    · exact (kept.owned k j own).2
  -- a client that has left its connect does not connect again
  have aside : ∀ j k, (σ.client j).pc.early = false → (j,k) ∉ connections log →
      (j,k) ∉ connections (log ++ out.2.map (σ,·)) := by
    intro j k early none' mem
    rcases connectionsOld routes mem with old | ⟨fd,here,_,_,_⟩
    · exact none' old
    · rw [here] at early
      contradiction
  refine ⟨stdNext kept inv move,aboveNext inv move,?_,?_,fun j k n => singleNext inv routes,
    fun j => baseNext kept inv move (lane j),?_,?_⟩
  · intro j k mem
    rcases connectionsOld routes mem with old | ⟨fd,here,on,own,late⟩
    · exact lateLane (lane j) (inv.early j k old)
    · exact late
  · intro j k mem
    obtain ⟨fd,mem'⟩ := opened j k mem
    exact ⟨fd,openedMono mem'⟩
  · intro e mem j k is
    rcases List.mem_append.mp mem with old | new
    · exact connectionsMono (inv.ups e old j k is)
    · obtain ⟨x,inside,rfl⟩ := List.mem_map.mp new
      exact connectionsMono (upsNext inv routes inside is)
  · intro e mem j k is
    have all : (σ.client j).pc.early = false ∧ (j,k) ∉ connections log ∧
        (k < 3 ∨ ∃ fd, .opened j fd k ∈ custodyLog log) := by
      rcases List.mem_append.mp mem with old | new
      · exact inv.downs e old j k is
      · obtain ⟨x,inside,rfl⟩ := List.mem_map.mp new
        exact downsNext shaped kept inv routes inside is
    exact ⟨lateLane (lane j) all.1,aside j k all.1 all.2.1,
        all.2.2.imp id (fun ⟨fd,mem'⟩ => ⟨fd,openedMono mem'⟩)⟩

end routes

section runs
variable {h : Host} {ok : Process → Action → Prop} {σ : Process} {log : Log Process Event}

theorem routedRun (calm : ∀ σ a, ok σ a → Undisturbed σ a) (run : Run (machine h) ok σ log) :
    Routed σ log := by
  have std : stdTable.fds 1 = some 1 ∧ stdTable.owner 1 = none ∧ 3 ≤ stdTable.count := by decide
  refine runInvariant (P := fun σ log => Routed σ log) ?_ ?_ run
  · refine ⟨std,?_,?_,?_,?_,fun i based => ?_,?_,?_⟩
    · simp [custodyLog,custody]
    · simp [connections]
    · simp [connections]
    · simp [connections]
    · simp [machine,init,Pc.based] at based
    · simp
    · simp
  · intro s log a s' es run allowed taken inv
    exact routedNext (shapedRun run) (calm _ _ allowed) (keptRun calm run) (stepGoes taken) inv

theorem viewSaid (i : Nat) (es : List Event) : (viewOf i es).said = es.flatMap (fun e => (e.view i).said) := by
  induction es with
  | nil => rfl
  | cons e es ih =>
    show (e.view i).said ++ (viewOf i es).said = _
    rw [ih]
    rfl

theorem ontoEntry (inv : Routed σ log) (kept : Kept σ.table σ.holds (custodyLog log)) {i k : Nat}
    (connected : (i,k) ∈ connections log) {e : Process × Event} (mem : e ∈ log) :
    e.2.onto k = (e.2.view i).said := by
  obtain ⟨fd,opened⟩ := inv.opened i k connected
  have mine : ∀ j n, (j,n) ∈ connections log → (n = k ↔ j = i) := by
    intro j n connected'
    constructor
    · rintro rfl
      obtain ⟨fd',opened'⟩ := inv.opened j n connected'
      exact kept.unique j i fd' fd n opened' opened
    · rintro rfl
      exact inv.single j n k connected' connected
  obtain ⟨σ₁,e⟩ := e
  cases e with
  | sent j n bytes =>
    have same := mine j n (inv.ups _ mem j n rfl)
    by_cases is : j = i
    · simp [Event.onto,Event.view,is,same.mpr is,View.saying]
    · simp [Event.onto,Event.view,is,mt same.mp is,View.empty]
  | relayed j toBase n data =>
    cases toBase with
    | true =>
      have same := mine j n (inv.ups _ mem j n rfl)
      by_cases is : j = i
      · simp [Event.onto,Event.view,is,same.mpr is,View.relaying]
      · simp [Event.onto,Event.view,is,mt same.mp is,View.empty]
    | false =>
      obtain ⟨_,aside,from'⟩ := inv.downs _ mem j n rfl
      have apart : n ≠ k := by
        rintro rfl
        rcases from' with low | ⟨fd',opened'⟩
        · have high := inv.above i fd n opened
          omega
        · cases kept.unique j i fd' fd n opened' opened
          exact aside connected
      by_cases is : j = i <;> simp [Event.onto,Event.view,apart,is,View.relaying,View.empty]
  | received j bytes => by_cases is : j = i <;> simp [Event.onto,Event.view,is,View.hearing,View.empty]
  | dialled j target => by_cases is : j = i <;> simp [Event.onto,Event.view,is,View.empty]
  | tx j ci => by_cases is : j = i <;> simp [Event.onto,Event.view,is,View.empty]
  | rx j ci => by_cases is : j = i <;> simp [Event.onto,Event.view,is,View.empty]
  | _ => rfl

theorem ontoSaid (calm : ∀ σ a, ok σ a → Undisturbed σ a) (run : Run (machine h) ok σ log) {i k : Nat}
    (connected : (i,k) ∈ connections log) : onto k log = (view i log).said := by
  rw [view,viewSaid,List.flatMap_map]
  exact List.flatMap_congr (fun e mem => ontoEntry (routedRun calm run) (keptRun calm run) connected mem)

def Calm (σ : Process) (a : Action) : Prop := Undisturbed σ a ∧ SentWhole σ a

instance (σ : Process) (a : Action) : Decidable (Calm σ a) := by
  unfold Calm
  infer_instance

/- A connection of a client carries what this client is to say, in order, and then what
its relay took from the other side; no other client's bytes are ever on it. -/
theorem connectionCarries (h : Host) (σ : Process) (log : Log Process Event) (run : Run (machine h) Calm σ log)
    (i k : Nat) (connected : (i,k) ∈ connections log) : onto k log = [] ∨
      (∃ planned, Planned h (σ.client i).kind (σ.client i).token planned ∧ onto k log <+: planned) ∨
      ∃ whole, Whole h (σ.client i).kind (σ.client i).token whole ∧ onto k log = whole ++ (view i log).up := by
  rw [ontoSaid (fun _ _ calm => calm.1) run connected]
  rcases spokeRun (fun _ _ calm => calm.2) run i with none' | spoke
  · exact .inl (by rw [none']; rfl)
  · exact .inr (spoke.said.imp And.right id)

theorem connectionCarriesListen : ∃ σ log, Run (machine (loopbackHost none)) Calm σ log ∧
    onto 5 log ≠ [] ∧ ((∃ planned, Planned (loopbackHost none) (σ.client 1).kind (σ.client 1).token planned ∧
      onto 5 log <+: planned) ∨
    ∃ whole, Whole (loopbackHost none) (σ.client 1).kind (σ.client 1).token whole ∧
      onto 5 log = whole ++ (view 1 log).up) := by
  obtain ⟨σ,log,run,shows⟩ := replayReaches (machine (loopbackHost none)) Calm listenOnce
    (fun (_,log) => (1,5) ∈ connections log ∧ onto 5 log ≠ []) (by decide +kernel)
  obtain ⟨connected,some'⟩ := of_decide_eq_true shows
  exact ⟨σ,log,run,some',(connectionCarries _ σ log run 1 5 connected).resolve_left some'⟩

end runs

end HevFsh.ClientTask
