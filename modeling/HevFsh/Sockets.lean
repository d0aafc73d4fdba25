import HevFsh.Descriptors

/-! Each accepted connection over a whole run: held by one field of one session
while it is open, and closed once, with the session that holds it. -/
namespace HevFsh.SessionTask
open SearchTree Protocol SessionManager Transitions

inductive Slot where
  | client | remote
  deriving DecidableEq, Repr

def fdIn (s : Session) : Slot → Int
  | .client => s.clientFd
  | .remote => s.remoteFd

def Holds (σ : Server) (i : Sid) (slot : Slot) (fd : Int) : Prop :=
  (σ.session i).live = true ∧ fdIn (σ.session i) slot = fd

def Open (σ : Server) (c : Sid) : Prop := ∃ fd, σ.fds fd = some c

def Event.ends : Event → Option Sid
  | .closed _ _ c => c
  | .refused c _ => some c
  | _ => none

def closings (c : Sid) (log : Log Server Event) : Nat := log.countP (fun e => e.2.ends = some c)

def Event.onSocket : Event → Bool
  | .opened _ _ | .refused _ _ | .closed _ _ _ | .destroyed _ => true
  | _ => false

def Silent (es : List Event) : Prop := ∀ e ∈ es, e.onSocket = false

structure SameSockets (σ σ' : Server) : Prop where
  fds : σ'.fds = σ.fds
  count : σ'.count = σ.count
  kept : ∀ j, (σ'.session j).live = (σ.session j).live ∧
    (σ'.session j).clientFd = (σ.session j).clientFd ∧
    (σ'.session j).remoteFd = (σ.session j).remoteFd

inductive SocketMove (cfg : Config) (σ : Server) : Server → List Event → Prop where
  | quiet {σ' es} (same : SameSockets σ σ') (silent : Silent es) : SocketMove cfg σ σ' es
  | opened {fd} (valid : 0 ≤ fd) (free : σ.fds fd = none) :
      SocketMove cfg σ (opened cfg σ fd) [.opened σ.count fd]
  | refused {fd} : SocketMove cfg σ {σ with count := σ.count + 1} [.refused σ.count fd]
  | closes {i σ₀ es} (live : (σ₀.session i).live = true) (same : SameSockets σ σ₀) (owned : Owned σ₀)
      (silent : Silent es) :
      SocketMove cfg σ (closeSession cfg σ₀ i) (es ++ closeEvents σ₀ i)
  | hands {i s es} (live : (σ.session i).live = true) (other : s ≠ i)
      (alive : (σ.session s).live = true) (vacant : ¬ 0 ≤ (σ.session s).remoteFd)
      (unset : ¬ 0 ≤ (σ.session i).remoteFd) (silent : Silent es) :
      SocketMove cfg σ (closeSession cfg (handOver cfg σ i s) i)
        (es ++ closeEvents (handOver cfg σ i s) i)

section moves
variable {cfg : Config} {σ σ' σ₀ : Server} {i : Sid} {a : Action} {es : List Event}

theorem sameSockets (σ : Server) : SameSockets σ σ := ⟨rfl,rfl,fun _ => ⟨rfl,rfl,rfl⟩⟩

theorem sameUpdate {s : Session} (fds : σ'.fds = σ.fds) (count : σ'.count = σ.count)
    (session : σ'.session = Function.update σ.session i s)
    (kept : s.live = (σ.session i).live ∧ s.clientFd = (σ.session i).clientFd ∧
      s.remoteFd = (σ.session i).remoteFd) : SameSockets σ σ' := by
  refine ⟨fds,count,fun j => ?_⟩
  rw [session]
  by_cases here : j = i
  · subst here; simpa using kept
  · simp [Function.update_of_ne here]

theorem sameTrans (first : SameSockets σ σ₀) (second : SameSockets σ₀ σ') : SameSockets σ σ' := by
  refine ⟨second.fds.trans first.fds,second.count.trans first.count,fun j => ?_⟩
  obtain ⟨live,client,remote⟩ := second.kept j
  obtain ⟨live',client',remote'⟩ := first.kept j
  exact ⟨live.trans live',client.trans client',remote.trans remote'⟩

theorem sameUnlock (t : Sid) : SameSockets σ (unlock σ t) := sameUpdate rfl rfl rfl ⟨rfl,rfl,rfl⟩

theorem loginTokenSilent {ver t} (came : LoginToken σ i a ver t es) : Silent es := by
  cases came <;> simp [Silent,Event.onSocket]

theorem acceptPassSilent {mt timeout} (pass : AcceptPass σ i a mt timeout es) : Silent es := by
  cases pass <;> simp [Silent,Event.onSocket]

theorem allowedSilent (t : Token) : Silent (allowedEvents σ i t) := by
  unfold allowedEvents
  split <;> simp [Silent,Event.onSocket]

theorem generatedSilent {s : Sid} (t : Token) : Silent (generatedEvents σ i s t) := by
  unfold generatedEvents
  split <;> simp [Silent,Event.onSocket]

theorem silentAppend {more : List Event} (first : Silent es) (second : Silent more) :
    Silent (es ++ more) := by
  intro e mem
  rcases List.mem_append.mp mem with mem | mem
  · exact first e mem
  · exact second e mem

theorem socketMoves (reg : Registry σ) (owned : Owned σ) (move : Moves cfg σ a σ' es) :
    SocketMove cfg σ σ' es := by
  have registers : ∀ {i t s p}, s.live = ((unlock σ t).session i).live →
      s.clientFd = ((unlock σ t).session i).clientFd → s.remoteFd = ((unlock σ t).session i).remoteFd →
      SameSockets σ ((register cfg (unlock σ t) i s).setPc i p) :=
    fun live client remote => sameTrans (sameUnlock _) (sameUpdate rfl rfl rfl ⟨live,client,remote⟩)
  cases move with
  | opened valid free => exact .opened valid free
  | refused valid free => exact .refused
  | hangsUp ending =>
    have silent : Silent [] := by simp [Silent]
    exact .closes (registryLive reg (hangsUpRuns ending)) (sameSockets σ) owned silent
  | @refuses i ver cmd random pc bad =>
    have silent : Silent [.header i ver cmd] := by simp [Silent,Event.onSocket]
    exact .closes (registryLive reg (by simp [pc,Pc.runs])) (sameSockets σ) owned silent
  | loginRejected came has unlisted =>
    exact .quiet (sameUpdate rfl rfl rfl ⟨rfl,rfl,rfl⟩)
      (silentAppend (loginTokenSilent came) (by simp [Silent,Event.onSocket]))
  | loginFresh came allowed missing =>
    exact .quiet (sameUpdate rfl rfl rfl ⟨rfl,rfl,rfl⟩)
      (silentAppend (silentAppend (loginTokenSilent came) (allowedSilent _))
        (by simp [Silent,Event.onSocket]))
  | @loginEvicts i a ver t es s came allowed found =>
    have token : SameSockets σ (setToken σ i t) := sameUpdate rfl rfl rfl ⟨rfl,rfl,rfl⟩
    refine .quiet (sameTrans token ?_) (silentAppend (silentAppend (loginTokenSilent came)
      (allowedSilent _)) (by simp [Silent,Event.onSocket]))
    exact sameUpdate rfl rfl (evictSession (setToken σ i t) cfg s) ⟨rfl,rfl,rfl⟩
  | connectFound pc found =>
    refine .quiet ⟨rfl,rfl,fun _ => ⟨rfl,rfl,rfl⟩⟩ (silentAppend (silentAppend ?_ (generatedSilent _)) ?_)
    all_goals simp [Silent,Event.onSocket]
  | acceptOver pass =>
    exact .closes (registryLive reg (acceptPassPlace reg pass).1) (sameSockets σ) owned
      (acceptPassSilent pass)
  | acceptWaits pass left missing =>
    exact .quiet ⟨rfl,rfl,fun _ => ⟨rfl,rfl,rfl⟩⟩
      (silentAppend (acceptPassSilent pass) (by simp [Silent,Event.onSocket]))
  | @acceptMatches i a mt timeout es s pass left found =>
    obtain ⟨runs,serves⟩ := acceptPassPlace reg pass
    obtain ⟨other,mem,type,_⟩ := acceptFinds serves found
    have live := registryLive reg runs
    have alive := ((reg.member s).mp mem).1
    refine .hands live other alive ?_ ?_
      (silentAppend (acceptPassSilent pass) (by simp [Silent,Event.onSocket]))
    · rw [owned.splice s alive,type]
      simp
    · rw [owned.splice i live]
      intro splice
      simp [splice,serving] at serves
  | locks pc free => exact .quiet (sameUpdate rfl rfl rfl ⟨rfl,rfl,rfl⟩) (by simp [Silent,Event.onSocket])
  | @writeFails i w sent res pc fail =>
    have live := registryLive reg (i := i) (by simp [pc,Pc.runs])
    have silent : Silent [.returned i w.target w.bytes sent res] := by simp [Silent,Event.onSocket]
    exact .closes (((sameUnlock w.target).kept i).1.trans live) (sameUnlock _) (ownedUnlock owned _) silent
  | loginRegisters pc done is => exact .quiet (registers rfl rfl rfl) (by simp [Silent,Event.onSocket])
  | connectWaits pc done is left unset =>
    exact .quiet (registers rfl rfl rfl) (by simp [Silent,Event.onSocket])
  | connectRelays pc done is leaves =>
    exact .quiet (registers rfl rfl rfl) (by simp [Silent,Event.onSocket])
  | kept pc done is => exact .quiet (sameUpdate rfl rfl rfl ⟨rfl,rfl,rfl⟩) (by simp [Silent,Event.onSocket])
  | _ => exact .quiet ⟨rfl,rfl,fun _ => ⟨rfl,rfl,rfl⟩⟩ (by simp [Silent,Event.onSocket])

def Gives (σ : Server) (i c : Sid) : Prop := ∃ slot, σ.fds (fdIn (σ.session i) slot) = some c

structure Held (σ : Server) : Prop where
  held : ∀ fd c, σ.fds fd = some c → ∃ i slot, Holds σ i slot fd
  one : ∀ fd fd' c, σ.fds fd = some c → σ.fds fd' = some c → fd = fd'

theorem holdsOnce (owned : Owned σ) {j slot slot' fd} (valid : 0 ≤ fd) (first : Holds σ i slot fd)
    (second : Holds σ j slot' fd) : (i,slot) = (j,slot') := by
  obtain ⟨live,here⟩ := first
  obtain ⟨live',there⟩ := second
  cases slot with
  | client => cases slot' with
    | client => rw [clientOnce owned live' live (here.trans there.symm)]
    | remote =>
      exact absurd (there.trans here.symm)
        (remoteApart owned live live' (le_of_le_of_eq valid there.symm))
  | remote =>
    have set : 0 ≤ (σ.session i).remoteFd := le_of_le_of_eq valid here.symm
    cases slot' with
    | client => exact absurd (here.trans there.symm) (remoteApart owned live' live set)
    | remote => rw [owned.single i j live live' set (here.trans there.symm)]

theorem fdInKept {s s' : Session} (client : s'.clientFd = s.clientFd) (remote : s'.remoteFd = s.remoteFd)
    (slot : Slot) : fdIn s' slot = fdIn s slot := by
  cases slot with
  | client => exact client
  | remote => exact remote

theorem sameHolds (same : SameSockets σ σ') {slot fd} : Holds σ' i slot fd ↔ Holds σ i slot fd := by
  obtain ⟨live,client,remote⟩ := same.kept i
  rw [Holds,Holds,live,fdInKept client remote]

theorem sameOpen (same : SameSockets σ σ') {c} : Open σ' c ↔ Open σ c := by
  rw [Open,Open,same.fds]

theorem closeFdsApply (owned : Owned σ) {fd c} :
    (closeSession cfg σ i).fds fd = some c ↔ σ.fds fd = some c ∧ ∀ slot, fdIn (σ.session i) slot ≠ fd := by
  rw [closeSessionFds,closeFdApply,closeFdApply]
  constructor
  · intro on
    split at on <;> try contradiction
    rename_i notClient
    split at on <;> try contradiction
    rename_i notRemote
    have valid := (owned.valid fd c on).1
    refine ⟨on,fun slot here => ?_⟩
    cases slot with
    | client => exact notClient ⟨le_of_le_of_eq valid here.symm,here.symm⟩
    | remote => exact notRemote ⟨le_of_le_of_eq valid here.symm,here.symm⟩
  · rintro ⟨on,away⟩
    rw [if_neg (fun h => away .client h.2.symm),if_neg (fun h => away .remote h.2.symm),on]

theorem closeOpen (owned : Owned σ) (held : Held σ) {c} :
    Open (closeSession cfg σ i) c ↔ Open σ c ∧ ¬ Gives σ i c := by
  constructor
  · rintro ⟨fd,on⟩
    obtain ⟨on,away⟩ := (closeFdsApply owned).mp on
    refine ⟨⟨fd,on⟩,?_⟩
    rintro ⟨slot,given⟩
    exact away slot (held.one _ _ c given on)
  · rintro ⟨⟨fd,on⟩,kept⟩
    exact ⟨fd,(closeFdsApply owned).mpr ⟨on,fun slot here => kept ⟨slot,by rw [here]; exact on⟩⟩⟩

theorem heldSame (inv : Held σ) (same : SameSockets σ σ') : Held σ' where
  held fd c on := by
    rw [same.fds] at on
    obtain ⟨i,slot,holds⟩ := inv.held fd c on
    exact ⟨i,slot,(sameHolds same).mpr holds⟩
  one := by rw [same.fds]; exact inv.one

theorem heldClose (owned : Owned σ) (inv : Held σ) : Held (closeSession cfg σ i) where
  held fd c on := by
    obtain ⟨on,away⟩ := (closeFdsApply owned).mp on
    obtain ⟨j,slot,live,here⟩ := inv.held fd c on
    have other : j ≠ i := by
      rintro rfl
      exact away slot here
    refine ⟨j,slot,?_⟩
    rw [Holds,closeSessionSession,Function.update_of_ne other]
    exact ⟨live,here⟩
  one fd fd' c on on' :=
    inv.one fd fd' c ((closeFdsApply owned).mp on).1 ((closeFdsApply owned).mp on').1

theorem heldHands {s} (inv : Held σ) (other : s ≠ i) (live : (σ.session i).live = true)
    (alive : (σ.session s).live = true) (vacant : ¬ 0 ≤ (σ.session s).remoteFd)
    (unset : ¬ 0 ≤ (σ.session i).remoteFd) (owned : Owned σ) :
    Held (closeSession cfg (handOver cfg σ i s) i) := by
  have fds := @matchedFds cfg σ i s other unset
  refine ⟨?_,by rw [fds]; exact inv.one⟩
  intro fd c on
  rw [fds] at on
  have valid := (owned.valid fd c on).1
  obtain ⟨j,slot,live',here⟩ := inv.held fd c on
  by_cases giver : j = i
  · subst giver
    cases slot with
    | client =>
      refine ⟨s,.remote,?_,?_⟩
      · simp [handOverSession σ cfg other,other,alive]
      · simpa [fdIn,Function.update_of_ne other,handOverSession σ cfg other,other] using here
    | remote => exact absurd (le_of_le_of_eq valid here.symm) unset
  · by_cases taker : j = s
    · subst taker
      cases slot with
      | client =>
        refine ⟨j,.client,?_,?_⟩
        · simp [handOverSession σ cfg other,giver,alive]
        · simpa [fdIn,Function.update_of_ne giver,handOverSession σ cfg other,giver] using here
      | remote => exact absurd (le_of_le_of_eq valid here.symm) vacant
    · refine ⟨j,slot,?_⟩
      rw [Holds,closeSessionSession,Function.update_of_ne giver,handOverSession σ cfg other,
        if_neg giver,if_neg taker]
      exact ⟨live',here⟩

theorem heldOpened {fd} (inv : Held σ) (owned : Owned σ) (reg : Registry σ) (free : σ.fds fd = none) :
    Held (opened cfg σ fd) := by
  have dead : (σ.session σ.count).live = false := by
    rw [reg.running,reg.ahead σ.count (Nat.le_refl _)]; rfl
  have old : ∀ {g c}, g ≠ fd → (opened cfg σ fd).fds g = some c → σ.fds g = some c ∧ c ≠ σ.count := by
    intro g c apart on
    have on : σ.fds g = some c := by simpa [opened,Function.update_of_ne apart] using on
    exact ⟨on,Nat.ne_of_lt (owned.valid g c on).2⟩
  have new : ∀ {c}, (opened cfg σ fd).fds fd = some c → c = σ.count := by
    intro c on
    simpa [opened,eq_comm] using on
  refine ⟨?_,?_⟩
  · intro g c on
    by_cases here : g = fd
    · subst here
      refine ⟨σ.count,.client,?_⟩
      simp [Holds,opened,newSession,fdIn]
    · obtain ⟨j,slot,live,at'⟩ := inv.held g c (old here on).1
      have apart : j ≠ σ.count := by
        rintro rfl
        simp [dead] at live
      refine ⟨j,slot,?_⟩
      simpa [Holds,opened,Function.update_of_ne apart] using ⟨live,at'⟩
  · intro g g' c on on'
    by_cases here : g = fd <;> by_cases here' : g' = fd
    · rw [here,here']
    · subst here
      exact absurd (new on) (old here' on').2
    · subst here'
      exact absurd (new on') (old here on).2
    · exact inv.one g g' c (old here on).1 (old here' on').1

theorem heldMoves (reg : Registry σ) (owned : Owned σ) (inv : Held σ) (move : Moves cfg σ a σ' es) :
    Held σ' := by
  cases socketMoves reg owned move with
  | quiet same silent => exact heldSame inv same
  | opened valid free => exact heldOpened inv owned reg free
  | refused => exact ⟨inv.held,inv.one⟩
  | closes live same owned silent => exact heldClose owned (heldSame inv same)
  | hands live other alive vacant unset silent => exact heldHands inv other live alive vacant unset owned

theorem endsSilent (silent : Silent es) (c : Sid) : es.countP (fun e => e.ends = some c) = 0 := by
  rw [List.countP_eq_zero]
  intro e mem
  have off := silent e mem
  cases e <;> simp_all [Event.onSocket,Event.ends]

theorem closingsNext {log : Log Server Event} (c : Sid) :
    closings c (log ++ es.map (σ,·)) = closings c log + es.countP (fun e => e.ends = some c) := by
  unfold closings
  rw [List.countP_append,List.countP_map]
  rfl

theorem closedEnds {fds : Int → Option Sid} {fd : Int} (c : Sid) :
    (closedEvents i fds fd).countP (fun e => e.ends = some c) =
      if 0 ≤ fd ∧ fds fd = some c then 1 else 0 := by
  unfold closedEvents
  split
  · rename_i valid
    by_cases on : fds fd = some c <;> simp [Event.ends,valid,on]
  · rename_i invalid
    simp [invalid]

theorem closeEnds (owned : Owned σ) (live : (σ.session i).live = true) (c : Sid) :
    (closeEvents σ i).countP (fun e => e.ends = some c) =
      (if 0 ≤ (σ.session i).remoteFd ∧ σ.fds (σ.session i).remoteFd = some c then 1 else 0) +
        if σ.fds (σ.session i).clientFd = some c then 1 else 0 := by
  have mine := owned.client i live
  have apart := clientApart owned live live
  have erased : (if (σ.session i).isMgr then [Event.erased σ.tree i] else []).countP
      (fun e => e.ends = some c) = 0 := by
    split <;> simp [Event.ends]
  unfold closeEvents destructEvents
  simp only [List.countP_append,closedEnds,closeFdApply,if_neg apart,erased]
  simp [Event.ends,mine.1]

theorem closeGives (owned : Owned σ) (live : (σ.session i).live = true) {c : Sid} (gives : Gives σ i c) :
    (closeEvents σ i).countP (fun e => e.ends = some c) = 1 := by
  rw [closeEnds owned live]
  have mine := owned.client i live
  by_cases own : c = i
  · subst own
    rw [if_neg,if_pos mine.2]
    rintro ⟨set,on⟩
    obtain ⟨d,on',dead⟩ := owned.remote c live set
    rw [on] at on'
    cases on'
    simp [live] at dead
  · obtain ⟨slot,on⟩ := gives
    cases slot with
    | client =>
      rw [fdIn,mine.2] at on
      exact absurd (Option.some.inj on).symm own
    | remote =>
      rw [fdIn] at on
      rw [if_pos ⟨(owned.valid _ c on).1,on⟩,if_neg]
      rw [mine.2]
      exact fun same => own (Option.some.inj same).symm

theorem closeKeeps (owned : Owned σ) (live : (σ.session i).live = true) {c : Sid} (keeps : ¬ Gives σ i c) :
    (closeEvents σ i).countP (fun e => e.ends = some c) = 0 := by
  have client : σ.fds (σ.session i).clientFd ≠ some c := fun on => keeps ⟨.client,on⟩
  rw [closeEnds owned live,if_neg (fun h => keeps ⟨.remote,h.2⟩),if_neg client]

structure Shut (σ : Server) (log : Log Server Event) : Prop where
  unshut : ∀ c, Open σ c → closings c log = 0
  shut : ∀ c, c < σ.count → ¬ Open σ c → closings c log = 1
  beyond : ∀ c, σ.count ≤ c → closings c log = 0

theorem shutKept {log : Log Server Event} (inv : Shut σ log) (count : σ'.count = σ.count)
    (opens : ∀ c, Open σ' c ↔ Open σ c) (silent : ∀ c, es.countP (fun e => e.ends = some c) = 0) :
    Shut σ' (log ++ es.map (σ,·)) where
  unshut c on := by
    rw [closingsNext,silent,inv.unshut c ((opens c).mp on)]
  shut c old off := by
    rw [closingsNext,silent,inv.shut c (count ▸ old) (fun on => off ((opens c).mpr on))]
  beyond c new := by
    rw [closingsNext,silent,inv.beyond c (count ▸ new)]

theorem openOld (owned : Owned σ) {c} (on : Open σ c) : c < σ.count := by
  obtain ⟨fd,on⟩ := on
  exact (owned.valid fd c on).2

theorem shutClose {log : Log Server Event} (inv : Shut σ log) (held : Held σ₀) (same : SameSockets σ σ₀)
    (owned : Owned σ₀) (live : (σ₀.session i).live = true) (silent : Silent es) :
    Shut (closeSession cfg σ₀ i) (log ++ (es ++ closeEvents σ₀ i).map (σ,·)) := by
  have counts : ∀ c, closings c (log ++ (es ++ closeEvents σ₀ i).map (σ,·)) =
      closings c log + (closeEvents σ₀ i).countP (fun e => e.ends = some c) := by
    intro c
    rw [closingsNext,List.countP_append,endsSilent silent,Nat.zero_add]
  refine ⟨?_,?_,?_⟩
  · intro c on
    obtain ⟨before,keeps⟩ := (closeOpen owned held).mp on
    rw [counts,closeKeeps owned live keeps,inv.unshut c ((sameOpen same).mp before)]
  · intro c old off
    rw [closeSessionCount,same.count] at old
    rw [counts]
    by_cases gives : Gives σ₀ i c
    · obtain ⟨slot,on⟩ := gives
      rw [closeGives owned live ⟨slot,on⟩,inv.unshut c ((sameOpen same).mp ⟨_,on⟩)]
    · have before : ¬ Open σ c := fun on => off ((closeOpen owned held).mpr ⟨(sameOpen same).mpr on,gives⟩)
      rw [closeKeeps owned live gives,inv.shut c old before]
  · intro c new
    rw [closeSessionCount,same.count] at new
    have keeps : ¬ Gives σ₀ i c := by
      rintro ⟨slot,on⟩
      have old := openOld owned ⟨_,on⟩
      rw [same.count] at old
      exact Nat.not_lt.mpr new old
    rw [counts,closeKeeps owned live keeps,inv.beyond c new]

theorem handsEnds {s} (other : s ≠ i) (unset : ¬ 0 ≤ (σ.session i).remoteFd) (c : Sid) :
    (closeEvents (handOver cfg σ i s) i).countP (fun e => e.ends = some c) = 0 := by
  have session : (handOver cfg σ i s).session i = {σ.session i with clientFd := -1} := by
    rw [handOverSession σ cfg other,if_pos rfl]
  rw [List.countP_eq_zero]
  intro e mem
  simp only [closeEvents,destructEvents,closedEvents,session,unset,List.mem_append,
    List.mem_ite_nil_right,List.mem_singleton] at mem
  rcases mem with ⟨_,rfl⟩ | (⟨no,_⟩ | ⟨no,_⟩) | rfl
  · simp [Event.ends]
  · contradiction
  · contradiction
  · simp [Event.ends]

theorem openedOpen {fd : Int} (free : σ.fds fd = none) {c} :
    Open (opened cfg σ fd) c ↔ c = σ.count ∨ Open σ c := by
  constructor
  · rintro ⟨g,on⟩
    by_cases here : g = fd
    · subst here
      exact .inl (by simpa [opened,eq_comm] using on)
    · exact .inr ⟨g,by simpa [opened,Function.update_of_ne here] using on⟩
  · rintro (rfl | ⟨g,on⟩)
    · exact ⟨fd,by simp [opened]⟩
    · have apart : g ≠ fd := by
        rintro rfl
        rw [free] at on
        contradiction
      exact ⟨g,by simpa [opened,Function.update_of_ne apart] using on⟩

theorem shutOpened {log : Log Server Event} (inv : Shut σ log) {fd : Int} (free : σ.fds fd = none) :
    Shut (opened cfg σ fd) (log ++ [Event.opened σ.count fd].map (σ,·)) := by
  have none' : ∀ c, [Event.opened σ.count fd].countP (fun e => e.ends = some c) = 0 :=
    fun c => by simp [Event.ends]
  refine ⟨?_,?_,?_⟩
  · intro c on
    rw [closingsNext,none']
    rcases (openedOpen free).mp on with rfl | on
    · exact inv.beyond _ (Nat.le_refl _)
    · exact inv.unshut c on
  · intro c old off
    have both := not_or.mp (fun h => off ((openedOpen free).mpr h))
    have less : c < σ.count := Nat.lt_of_le_of_ne (Nat.le_of_lt_succ old) both.1
    rw [closingsNext,none',inv.shut c less both.2]
  · intro c new
    have more : σ.count + 1 ≤ c := new
    rw [closingsNext,none',inv.beyond c (by omega)]

theorem shutRefused {log : Log Server Event} (owned : Owned σ) (inv : Shut σ log) (fd : Int) :
    Shut { σ with count := σ.count + 1 } (log ++ [Event.refused σ.count fd].map (σ,·)) := by
  have one : ∀ c, [Event.refused σ.count fd].countP (fun e => e.ends = some c) =
      if σ.count = c then 1 else 0 := by
    intro c
    simp [List.countP_cons,Event.ends]
  refine ⟨?_,?_,?_⟩
  · intro c on
    have old := openOld owned on
    rw [closingsNext,one,if_neg (Nat.ne_of_gt old),inv.unshut c on]
  · intro c old off
    rw [closingsNext,one]
    split
    · rename_i here
      rw [inv.beyond c (Nat.le_of_eq here)]
    · rename_i other
      rw [inv.shut c (Nat.lt_of_le_of_ne (Nat.le_of_lt_succ old) (Ne.symm other)) off]
  · intro c new
    have new : σ.count + 1 ≤ c := new
    rw [closingsNext,one,if_neg (by omega),inv.beyond c (by omega)]

theorem shutNext {log : Log Server Event} (reg : Registry σ) (owned : Owned σ) (held : Held σ)
    (inv : Shut σ log) (move : Moves cfg σ a σ' es) : Shut σ' (log ++ es.map (σ,·)) := by
  cases socketMoves reg owned move with
  | quiet same silent => exact shutKept inv same.count (fun _ => sameOpen same) (endsSilent silent)
  | opened valid free => exact shutOpened inv free
  | refused => exact shutRefused owned inv _
  | closes live same owned silent => exact shutClose inv (heldSame held same) same owned live silent
  | @hands i s es live other alive vacant unset silent =>
    refine shutKept inv ?_ ?_ ?_
    · rw [closeSessionCount,handOverCount]
    · intro c
      rw [Open,Open,matchedFds other unset]
    · intro c
      rw [List.countP_append,endsSilent silent,handsEnds other unset]

structure ClosedWell (log : Log Server Event) (σ₁ : Server) (i : Sid) (fd : Int) (c : Option Sid) :
    Prop where
  holder : ∃ slot, Holds σ₁ i slot fd
  conn : c = σ₁.fds fd ∧ c ≠ none
  destroyed : (σ₁,Event.destroyed i) ∈ log

theorem closedInside {fds : Int → Option Sid} {fd g : Int} {j : Sid} {c}
    (mem : Event.closed j g c ∈ closedEvents i fds fd) : j = i ∧ g = fd ∧ c = fds fd ∧ 0 ≤ fd := by
  unfold closedEvents at mem
  split at mem <;> try contradiction
  rename_i valid
  cases List.mem_singleton.mp mem
  exact ⟨rfl,rfl,rfl,valid⟩

theorem closeClosed (owned : Owned σ) (live : (σ.session i).live = true) {j fd c}
    (mem : Event.closed j fd c ∈ closeEvents σ i) :
    j = i ∧ (∃ slot, Holds σ i slot fd) ∧ c = σ.fds fd ∧ c ≠ none := by
  have mine := owned.client i live
  simp only [closeEvents,destructEvents,List.mem_append,List.mem_ite_nil_right,List.mem_singleton,
    reduceCtorEq,and_false,false_or,or_false] at mem
  rcases mem with mem | mem
  · obtain ⟨rfl,rfl,rfl,set⟩ := closedInside mem
    obtain ⟨d,on,_⟩ := owned.remote j live set
    exact ⟨rfl,⟨.remote,live,rfl⟩,rfl,by simp [on]⟩
  · obtain ⟨rfl,rfl,rfl,_⟩ := closedInside mem
    rw [closeFdApply,if_neg (clientApart owned live live)]
    exact ⟨rfl,⟨.client,live,rfl⟩,rfl,by simp [mine.2]⟩

theorem closeDestroys : Event.destroyed i ∈ closeEvents σ i := by
  simp [closeEvents,destructEvents]

theorem closedMoves {log : Log Server Event} (reg : Registry σ) (owned : Owned σ)
    (move : Moves cfg σ a σ' es) {j fd c} (mem : Event.closed j fd c ∈ es) :
    ClosedWell (log ++ es.map (σ,·)) σ j fd c := by
  have silence : ∀ {es : List Event}, Silent es → Event.closed j fd c ∉ es := by
    intro es silent mem
    have := silent _ mem
    contradiction
  cases socketMoves reg owned move with
  | quiet same silent => exact absurd mem (silence silent)
  | opened valid free => simp at mem
  | refused => simp at mem
  | @closes i σ₀ es live same owned silent =>
    rcases List.mem_append.mp mem with mem | mem
    · exact absurd mem (silence silent)
    · obtain ⟨rfl,⟨slot,holds⟩,is,some'⟩ := closeClosed owned live mem
      rw [same.fds] at is
      exact ⟨⟨slot,(sameHolds same).mp holds⟩,⟨is,some'⟩,
        memNext.mpr (.inr ⟨rfl,List.mem_append_right _ closeDestroys⟩)⟩
  | @hands i s es live other alive vacant unset silent =>
    rcases List.mem_append.mp mem with mem | mem
    · exact absurd mem (silence silent)
    · have session : (handOver cfg σ i s).session i = {σ.session i with clientFd := -1} := by
        rw [handOverSession σ cfg other,if_pos rfl]
      simp [closeEvents,destructEvents,closedEvents,session,unset] at mem

theorem closedMore {log more : Log Server Event} {σ₁ j fd c} (known : ClosedWell log σ₁ j fd c) :
    ClosedWell (log ++ more) σ₁ j fd c :=
  ⟨known.holder,known.conn,List.mem_append_left _ known.destroyed⟩

end moves

section runs
variable {cfg : Config} {ok : Server → Action → Prop} {σ : Server} {log : Log Server Event}

theorem heldRun (run : Run (machine cfg) ok σ log) : Held σ := by
  refine runInvariant (P := fun σ _ => Held σ) ?_ ?_ run
  · exact ⟨fun fd c on => by simp [machine,init] at on,fun fd _ c on => by simp [machine,init] at on⟩
  · intro s log a s' es run _ taken inv
    exact heldMoves (registryRun run) (ownedRun run) inv (stepMoves taken)

theorem shutRun (run : Run (machine cfg) ok σ log) : Shut σ log := by
  refine runInvariant (P := fun σ log => Shut σ log) ?_ ?_ run
  · refine ⟨?_,?_,?_⟩ <;> simp [machine,init,closings,Open]
  · intro s log a s' es run _ taken inv
    exact shutNext (registryRun run) (ownedRun run) (heldRun run) inv (stepMoves taken)

theorem closedRun (run : Run (machine cfg) ok σ log) :
    ∀ σ₁ i fd c, (σ₁,Event.closed i fd c) ∈ log → ClosedWell log σ₁ i fd c := by
  refine runInvariant (P := fun _ log => ∀ σ₁ i fd c, (σ₁,Event.closed i fd c) ∈ log →
    ClosedWell log σ₁ i fd c) (by simp) ?_ run
  intro s log a s' es run _ taken inv σ₁ i fd c mem
  rcases memNext.mp mem with old | ⟨rfl,new⟩
  · exact closedMore (inv σ₁ i fd c old)
  · exact closedMoves (registryRun run) (ownedRun run) (stepMoves taken) new

structure SocketsOwned (σ : Server) (log : Log Server Event) : Prop where
  held : ∀ fd c, σ.fds fd = some c → ∃! h : Sid × Slot, Holds σ h.1 h.2 fd
  splice : ∀ i, (σ.session i).live = true →
    (0 ≤ (σ.session i).remoteFd ↔ (σ.session i).type = .splice)
  unclosed : ∀ c, Open σ c → closings c log = 0
  once : ∀ c, c < σ.count → ¬ Open σ c → closings c log = 1
  closer : ∀ σ₁ i fd c, (σ₁,Event.closed i fd c) ∈ log → ClosedWell log σ₁ i fd c

theorem socketsOwned (cfg : Config) (σ : Server) (log : Log Server Event)
    (run : Run (machine cfg) (fun _ _ => True) σ log) : SocketsOwned σ log := by
  have owned := ownedRun run
  have shut := shutRun run
  refine ⟨?_,owned.splice,shut.unshut,shut.shut,closedRun run⟩
  intro fd c on
  obtain ⟨i,slot,holds⟩ := (heldRun run).held fd c on
  refine ⟨(i,slot),holds,?_⟩
  rintro ⟨j,slot'⟩ holds'
  exact holdsOnce owned (owned.valid fd c on).1 holds' holds

theorem socketsOwnedHanded : ∃ σ log, Run (machine (plainConfig 120 none)) (fun _ _ => True) σ log ∧
    closings 0 log = 0 ∧ (∃! h : Sid × Slot, Holds σ h.1 h.2 5) ∧
    ∃ σ₁, ClosedWell log σ₁ 1 7 (some 2) := by
  obtain ⟨σ,log,run,shows⟩ := replayReaches (machine (plainConfig 120 none)) (fun _ _ => True)
    (loginActions 0 5 2 (tokenOf 7) ++ connectActions 1 6 (tokenOf 7) .zero ++
      ([.lock 1,.send 1 18,.sendReturn 1 18,.accept 7,.recvMessage 2 (some (1,4)) .zero,
        .recvToken 2 (some (tokenOf 7)) .zero,.wake 1 1,.relayEnd 1,.refuse 6] : List Action))
    (fun r => r.1.fds 5 = some 0 ∧ (r.2.map Prod.snd).contains (.closed 1 7 (some 2))) (by decide)
  obtain ⟨on,closed⟩ := of_decide_eq_true shows
  obtain ⟨⟨σ₁,e⟩,mem,rfl⟩ := List.mem_map.mp (List.contains_iff_mem.mp closed)
  have sockets := socketsOwned (plainConfig 120 none) σ log run
  exact ⟨σ,log,run,sockets.unclosed 0 ⟨5,on⟩,sockets.held 5 0 on,σ₁,sockets.closer σ₁ 1 7 _ mem⟩

end runs

end HevFsh.SessionTask
