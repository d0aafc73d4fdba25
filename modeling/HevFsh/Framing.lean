import HevFsh.ForwardReader
import HevFsh.Pairing

/-! The bytes on a forwarder's socket. Its own task and any number of connectors
share it under the session's write lock; each writes one message at a time. -/
namespace HevFsh.SessionTask
open SearchTree Protocol SessionManager Transitions ClientForward

def Event.command (f : Sid) : Event → Option UInt8
  | .header i _ cmd => if i = f then some cmd else none
  | _ => none

def commands (f : Sid) (log : Log Server Event) : List UInt8 :=
  log.filterMap (fun e => e.2.command f)

/- The client sends LOGIN first and only KEEP_ALIVE afterwards. -/
def Talk (f : Sid) (log : Log Server Event) : Prop :=
  (∀ cmd ∈ (commands f log).head?, Command.ofByte cmd = some .login) ∧
    ∀ cmd ∈ (commands f log).tail, Command.ofByte cmd = some .keepAlive

def Event.streamTo (f : Sid) : Event → Bytes
  | .sent _ conn bytes => if conn = f then bytes else []
  | .relayed _ conn data => if conn = f then data else []
  | _ => []

def stream (f : Sid) (log : Log Server Event) : Bytes := log.flatMap (fun e => e.2.streamTo f)

def Event.lockedFor (f : Sid) : Event → Option Bytes
  | .locked _ s bytes => if s = f then some bytes else none
  | _ => none

/- The messages for `f` in the order in which their writers got the lock. -/
def lockOrder (f : Sid) (log : Log Server Event) : List Bytes :=
  log.filterMap (fun e => e.2.lockedFor f)

section logs
variable {f : Sid} {log : Log Server Event} {σ : Server} {es : List Event}

theorem streamAppend (more : Log Server Event) : stream f (log ++ more) = stream f log ++ stream f more := by
  simp [stream]

theorem lockOrderAppend (more : Log Server Event) :
    lockOrder f (log ++ more) = lockOrder f log ++ lockOrder f more := by
  simp [lockOrder]

theorem talkInitial {more : Log Server Event} (talk : Talk f (log ++ more)) : Talk f log := by
  have whole : commands f (log ++ more) = commands f log ++ commands f more := by simp [commands]
  rw [Talk,whole] at talk
  obtain ⟨first,rest⟩ := talk
  cases shape : commands f log with
  | nil => simp [Talk,shape]
  | cons cmd cmds =>
    rw [shape] at first rest
    exact ⟨by simpa [shape] using first,fun c mem => rest c (by simp_all)⟩

theorem talkHeader {ver cmd} (talk : Talk f (log ++ [(σ,.header f ver cmd)])) :
    Command.ofByte cmd = some .login ∨
      Command.ofByte cmd = some .keepAlive ∧ ∃ v, LoggedIn log f v := by
  have whole : commands f (log ++ [(σ,.header f ver cmd)]) = commands f log ++ [cmd] := by
    simp [commands,Event.command]
  rw [Talk,whole] at talk
  obtain ⟨first,rest⟩ := talk
  cases shape : commands f log with
  | nil =>
    rw [shape] at first
    exact .inl (first cmd (by simp))
  | cons head cmds =>
    rw [shape] at first rest
    have login : Command.ofByte head = some .login := first head (by simp)
    refine .inr ⟨rest cmd (by simp),?_⟩
    have mem : head ∈ commands f log := by simp [shape]
    obtain ⟨⟨σ₁,e⟩,inside,is⟩ := List.mem_filterMap.mp mem
    cases e <;> simp only [Event.command,reduceCtorEq] at is
    rename_i i v c
    split at is
    · rename_i same
      cases is
      exact ⟨v,σ₁,head,same ▸ inside,login⟩
    · contradiction

end logs

def Talks (σ : Server) (f : Sid) : Prop :=
  match σ.pc f with
  | .connectRecv | .acceptRecv | .acceptWait _ _ | .spliceWait _ | .relay _ _ => False
  | .writeLock w | .writeSend w _ => match w.after with
      | .login _ => True
      | .connect _ => False
      | .keepAlive => (σ.session f).type ≠ .null
  | _ => True

section talks
variable {cfg : Config} {σ σ' : Server} {log : Log Server Event} {f : Sid} {a : Action}
  {es : List Event}

theorem talksNext (reg : Registry σ) (versions : Versions σ log) (inv : Talk f log → Talks σ f)
    (move : Moves cfg σ a σ' es) (talk : Talk f (log ++ es.map (σ,·))) : Talks σ' f := by
  have old := inv (talkInitial talk)
  have typed : (σ.session f).type ≠ .null → (σ'.session f).type ≠ .null :=
    mt (nullBefore reg move)
  have arrives := arrivesMoves reg move (j := f)
  unfold Talks at old ⊢
  generalize σ'.pc f = p at arrives
  cases arrives with
  | stays away =>
    cases pc : σ.pc f with
    | writeLock w => cases after : w.after <;> simp_all
    | writeSend w n => cases after : w.after <;> simp_all
    | _ => simp_all
  | opened fresh nobody => trivial
  | ended mine => trivial
  | rejected mine => trivial
  | @enters ver cmd random p is pc next logged =>
    rw [logged] at talk
    have header := talkHeader talk
    cases next with
    | login cmdIs type other => trivial
    | connect cmdIs type => simp [cmdIs] at header
    | accept cmdIs => simp [cmdIs] at header
    | quiet cmdIs => trivial
    | keepAlive cmdIs other =>
      simp only [cmdIs,Option.some.injEq,reduceCtorEq,true_and,false_or] at header
      obtain ⟨v,login⟩ := header
      exact typed (fun null => versions.idle f null (by rw [pc]; rfl) v login)
  | login came allowed token logged => trivial
  | connect is pc found logged => simp [pc] at old
  | accept pass logged => cases pass <;> simp_all
  | @locks w is pc free logged => cases after : w.after <;> simp_all
  | @sends w sent n conn is pc positive room valid logged => cases after : w.after <;> simp_all
  | registered is pc after type => trivial
  | kept is pc after => trivial
  | connected is pc after => simp [pc,after] at old
  | waits is pc => simp [pc] at old
  | connectRelays is pc after logged => simp [pc,after] at old
  | spliceRelays is pc logged => simp [pc] at old

end talks

theorem talksRun {cfg : Config} {ok : Server → Action → Prop} {σ log}
    (run : Run (machine cfg) ok σ log) {f : Sid} (talk : Talk f log) : Talks σ f := by
  refine runInvariant (P := fun σ log => Talk f log → Talks σ f) ?_ ?_ run talk
  · intro _
    simp [Talks,machine,init]
  · intro s log a s' es run _ taken inv talk
    exact talksNext (registryRun run) (versionsRun run) inv (stepMoves taken) talk

def HandedOver (σ : Server) (log : Log Server Event) : Prop :=
  ∀ fd c, σ.fds fd = some c → ((σ.session c).live = true ∧ (σ.session c).clientFd = fd) ∨
    ∃ s, (c,s) ∈ pairs log

section handed
variable {cfg : Config} {σ σ' : Server} {log : Log Server Event} {i : Sid} {a : Action}
  {es : List Event}

theorem handedFrame (inv : HandedOver σ log) (fds : σ'.fds = σ.fds)
    (kept : ∀ c, (σ'.session c).live = (σ.session c).live ∧
      (σ'.session c).clientFd = (σ.session c).clientFd) : HandedOver σ' log := by
  intro fd c on
  rw [fds] at on
  rw [(kept c).1,(kept c).2]
  exact inv fd c on

theorem handedUpdate {s : Session} (inv : HandedOver σ log) (fds : σ'.fds = σ.fds)
    (session : σ'.session = Function.update σ.session i s)
    (kept : s.live = (σ.session i).live ∧ s.clientFd = (σ.session i).clientFd) :
    HandedOver σ' log := by
  refine handedFrame inv fds (fun c => ?_)
  rw [session]
  by_cases same : c = i
  · subst same; simpa using kept
  · simp [Function.update_of_ne same]

theorem handedClose (owned : Owned σ) (inv : HandedOver σ log) :
    HandedOver (closeSession cfg σ i) log := by
  intro fd c on
  rw [closeSessionFds,closeFdApply] at on
  split at on <;> try contradiction
  rename_i other
  rw [closeFdApply] at on
  split at on <;> try contradiction
  rcases inv fd c on with ⟨live,client⟩ | paired
  · have apart : c ≠ i := by
      rintro rfl
      exact other ⟨(owned.client c live).1,client.symm⟩
    left
    simp [Function.update_of_ne apart,live,client]
  · exact .inr paired

theorem handedMore {more : Log Server Event} (inv : HandedOver σ log) : HandedOver σ (log ++ more) := by
  intro fd c on
  rcases inv fd c on with mine | ⟨s,mem⟩
  · exact .inl mine
  · refine .inr ⟨s,?_⟩
    simp only [pairs,List.filterMap_append,List.mem_append] at mem ⊢
    exact .inl mem

theorem handedNext (reg : Registry σ) (owned : Owned σ) (inv : HandedOver σ log)
    (move : Moves cfg σ a σ' es) : HandedOver σ' (log ++ es.map (σ,·)) := by
  have unlocked : ∀ t, HandedOver (unlock σ t) log := fun t => handedUpdate inv rfl rfl ⟨rfl,rfl⟩
  cases move with
  | @opened fd valid free =>
    refine handedMore (fun g c on => ?_)
    by_cases same : g = fd
    · subst same
      simp only [opened,Function.update_self,Option.some.injEq] at on
      subst on
      left
      simp [opened,newSession]
    · simp only [opened,Function.update_of_ne same] at on
      have old : c ≠ σ.count := Nat.ne_of_lt (owned.valid g c on).2
      simpa [opened,Function.update_of_ne old] using inv g c on
  | hangsUp ending => exact handedMore (handedClose owned inv)
  | refuses pc bad => exact handedMore (handedClose owned inv)
  | loginRejected came has unlisted => exact handedMore (handedUpdate inv rfl rfl ⟨rfl,rfl⟩)
  | loginFresh came allowed missing => exact handedMore (handedUpdate inv rfl rfl ⟨rfl,rfl⟩)
  | @loginEvicts i a ver t es s came allowed found =>
    have token : HandedOver (setToken σ i t) log := handedUpdate inv rfl rfl ⟨rfl,rfl⟩
    exact handedMore (handedUpdate token rfl (evictSession (setToken σ i t) cfg s) ⟨rfl,rfl⟩)
  | acceptOver pass => exact handedMore (handedClose owned inv)
  | @acceptMatches i a mt timeout es s pass left found =>
    have other := (acceptFinds (acceptPassPlace reg pass).2 found).1
    intro fd c on
    have before : σ.fds fd = some c := by
      simp only [closeSessionFds,closeFdApply,handOverFds] at on
      split at on <;> try contradiction
      split at on <;> try contradiction
      exact on
    by_cases giver : c = i
    · right
      refine ⟨s,?_⟩
      rw [giver,pairsNext]
      simp [Event.pair]
    · rcases inv fd c before with ⟨live,client⟩ | ⟨taker,mem⟩
      · left
        rw [closeSessionSession,Function.update_of_ne giver,handOverSession σ cfg other,if_neg giver]
        split
        · rename_i same; subst same; exact ⟨live,client⟩
        · exact ⟨live,client⟩
      · exact .inr ⟨taker,by rw [pairsNext]; exact List.mem_append_left _ mem⟩
  | locks pc free => exact handedMore (handedUpdate inv rfl rfl ⟨rfl,rfl⟩)
  | writeFails pc fail => exact handedMore (handedClose (ownedUnlock owned _) (unlocked _))
  | loginRegisters pc done is => exact handedMore (handedUpdate (unlocked _) rfl rfl ⟨rfl,rfl⟩)
  | connectWaits pc done is left unset =>
    exact handedMore (handedUpdate (unlocked _) rfl rfl ⟨rfl,rfl⟩)
  | connectRelays pc done is leaves => exact handedMore (handedUpdate (unlocked _) rfl rfl ⟨rfl,rfl⟩)
  | kept pc done is => exact handedMore (unlocked _)
  | _ => exact handedMore inv

end handed

section sockets
variable {cfg : Config} {ok : Server → Action → Prop} {σ σ' : Server} {log : Log Server Event}
  {f : Sid} {a : Action} {es : List Event}

theorem handedRun (run : Run (machine cfg) ok σ log) : HandedOver σ log := by
  refine runInvariant (P := fun σ log => HandedOver σ log) (fun fd c on => by simp [machine,init] at on)
    ?_ run
  intro s log a s' es run _ taken inv
  exact handedNext (registryRun run) (ownedRun run) inv (stepMoves taken)

theorem talkPairs (run : Run (machine cfg) ok σ log) (talk : Talk f log) (s : Sid) :
    (f,s) ∉ pairs log := by
  intro mem
  obtain ⟨⟨σ₁,e⟩,inside,is⟩ := List.mem_filterMap.mp mem
  cases e <;> simp only [Event.pair,Option.some.injEq,Prod.mk.injEq,reduceCtorEq] at is
  obtain ⟨rfl,rfl⟩ := is
  obtain ⟨pre,a,σ₂,es,earlier,_,taken,new,⟨rest,whole⟩⟩ := runStep run inside
  rw [← whole,List.append_assoc] at talk
  have talks := talksRun earlier (talkInitial talk)
  cases movesLogs (stepMoves taken) new with
  | plain is => contradiction
  | matched pass left found next logged =>
    unfold Talks at talks
    cases pass <;> simp_all

theorem relayedElsewhere (run : Run (machine cfg) ok σ log) (talk : Talk f log)
    (move : Moves cfg σ a σ' es) (i : Sid) (data : Bytes) : .relayed i f data ∉ es := by
  intro mem
  have owned := ownedRun run
  cases movesLogs move mem with
  | plain is => contradiction
  | @relayed i c r conn data pc valid =>
    have live := registryLive (registryRun run) (by simp [pc,Pc.runs] : (σ.pc i).runs = true)
    obtain ⟨client,held⟩ := relayHeldRun run i c r pc
    rcases valid with on | on
    · -- its own connection: the client would be a connector
      rw [client,(owned.client i live).2] at on
      cases on
      have talks := talksRun run talk
      simp [Talks,pc] at talks
    · -- the connection handed over to it
      obtain ⟨splice,remote⟩ := held (owned.valid r f on).1
      obtain ⟨other,on',dead⟩ := owned.remote i live ((owned.splice i live).mpr splice)
      rw [← remote,on] at on'
      cases on'
      rcases handedRun run r f on with ⟨alive,_⟩ | ⟨s,mem⟩
      · simp [alive] at dead
      · exact talkPairs run talk s mem

theorem targetTyped (run : Run (machine cfg) ok σ log) :
    ∀ i w t, (σ.pc i).write = some w → w.after = .connect t → (σ.session w.target).type ≠ .null := by
  refine runInvariant (P := fun σ _ => ∀ i w t, (σ.pc i).write = some w → w.after = .connect t →
    (σ.session w.target).type ≠ .null) (by simp [machine,init,Pc.write]) ?_ run
  intro s log a s' es run _ taken inv i w t writes after
  have reg := registryRun run
  have move := stepMoves taken
  cases writesMoves reg move writes with
  | @carried w fd old => exact mt (nullBefore reg move) (inv i w t old after)
  | connect is pc found logged =>
    refine mt (nullBefore reg move) ?_
    simp [(findSound found).2.1]
  | _ => contradiction

theorem talksWrite {w} (talks : Talks σ f) (writes : (σ.pc f).write = some w)
    (after : w.after = .keepAlive) : (σ.session f).type ≠ .null := by
  unfold Talks at talks
  cases pc : σ.pc f <;> simp only [pc,Pc.write,Option.some.injEq,reduceCtorEq] at writes talks
  · subst writes
    simpa only [after] using talks
  · subst writes
    simpa only [after] using talks

theorem writeNull {i w} (reg : Registry σ) (writes : (σ.pc i).write = some w)
    (other : w.after ≠ .keepAlive) : (σ.session i).type = .null := by
  have fits := reg.fits i
  cases pc : σ.pc i <;> simp only [pc,Pc.write,Option.some.injEq,reduceCtorEq] at writes
  · subst writes
    simpa [pc,Fits,other] using fits
  · subst writes
    simpa [pc,Fits,other] using fits

theorem talksOwn (run : Run (machine cfg) ok σ log) (talk : Talk f log) {w}
    (writes : (σ.pc f).write = some w) : w.target = f := by
  have shape := ((writingRun run f).shape w writes).2
  have talks := talksRun run talk
  rcases ownTarget shape with own | ⟨mt,after⟩
  · exact own
  · unfold Talks at talks
    cases pc : σ.pc f <;> simp_all [Pc.write]

theorem writeReply (run : Run (machine cfg) ok σ log) (talk : Talk f log) {i : Sid} {w : Write}
    (writes : (σ.pc i).write = some w) (target : w.target = f) :
    ∃ r : Reply, r.bytes = w.bytes ∧ (r.isToken = true ↔ (σ.session f).type = .null) := by
  have shape := ((writingRun run i).shape w writes).2
  unfold WriteShape at shape
  cases after : w.after with
  | login ver =>
    simp only [after] at shape
    have own : i = f := shape.1.symm.trans target
    have null := writeNull (registryRun run) writes (by simp [after])
    rw [own] at shape null
    exact ⟨.token (σ.session f).token,shape.2.symm,by simp [Reply.isToken,null]⟩
  | connect mt =>
    simp only [after] at shape
    have type := targetTyped run i w mt writes after
    rw [target] at type
    exact ⟨.connect mt,shape.2.symm,by simp [Reply.isToken,type]⟩
  | keepAlive =>
    simp only [after] at shape
    have own : i = f := shape.1.symm.trans target
    rw [own] at writes
    have type := talksWrite (talksRun run talk) writes after
    exact ⟨.keepAlive,shape.2.symm,by simp [Reply.isToken,type]⟩

end sockets

def After.connects : After → Bool
  | .connect _ => true
  | _ => false

def Uncut (σ : Server) (a : Action) : Prop :=
  ∀ x ∈ a.returns, ∀ y ∈ (σ.pc x.1).sending, y.1.after.connects = true → x.2 ≤ 0 →
    y.2 = 0 ∨ y.2 = y.1.bytes.length

instance (σ : Server) (a : Action) : Decidable (Uncut σ a) := by
  unfold Uncut; infer_instance

theorem cutWhole {σ i res w sent mt} (uncut : Uncut σ (.sendReturn i res))
    (pc : σ.pc i = .writeSend w sent) (after : w.after = .connect mt) (fail : res ≤ 0) :
    sent = 0 ∨ sent = w.bytes.length :=
  uncut (i,res) rfl (w,sent) (by rw [pc]; rfl) (by rw [after]; rfl) fail

def Unbroken (σ : Server) (a : Action) : Prop := Undivided σ a ∧ Uncut σ a

instance (σ : Server) (a : Action) : Decidable (Unbroken σ a) := by
  unfold Unbroken; infer_instance

/- The socket of `f` has carried the whole messages `rs`, and part of one more while
that one is being sent or after its writer has closed the session. -/
structure FrameAt (σ : Server) (log : Log Server Event) (f : Sid) (rs : List Reply) : Prop where
  begun : Begun rs
  order : (rs.map Reply.bytes).Sublist (lockOrder f log)
  null : (σ.session f).type = .null ↔ rs = []
  unborn : σ.count ≤ f → stream f log = []
  busy : ∀ i w n, (σ.pc i).sending = some (w,n) → w.target = f →
    stream f log = rs.flatMap Reply.bytes ++ w.bytes.take n ∧
      (rs.map Reply.bytes ++ [w.bytes]).Sublist (lockOrder f log)
  idle : (σ.session f).live = true → (∀ i w n, (σ.pc i).sending = some (w,n) → w.target ≠ f) →
    stream f log = rs.flatMap Reply.bytes
  dead : (σ.session f).live = false → ∃ (r : Reply) (part : Bytes),
    stream f log = rs.flatMap Reply.bytes ++ part ∧ part <+: r.bytes ∧
      (r.isToken = true ↔ rs = []) ∧
      (part ≠ [] → (rs.map Reply.bytes ++ [r.bytes]).Sublist (lockOrder f log))

section frames
variable {cfg : Config} {σ σ' : Server} {log : Log Server Event} {f : Sid} {a : Action}
  {es : List Event} {rs : List Reply}

theorem orderMore {l : List Bytes} (known : l.Sublist (lockOrder f log)) (more : Log Server Event) :
    l.Sublist (lockOrder f (log ++ more)) := by
  rw [lockOrderAppend]
  exact known.trans (List.sublist_append_left _ _)

theorem frameSame (inv : FrameAt σ log f rs) (quiet : stream f (es.map (σ,·)) = [])
    (sending : ∀ k w n, w.target = f →
      ((σ'.pc k).sending = some (w,n) ↔ (σ.pc k).sending = some (w,n)))
    (live : (σ'.session f).live = (σ.session f).live)
    (null : (σ'.session f).type = .null ↔ (σ.session f).type = .null) (count : σ.count ≤ σ'.count) :
    FrameAt σ' (log ++ es.map (σ,·)) f rs := by
  have same : stream f (log ++ es.map (σ,·)) = stream f log := by
    rw [streamAppend,quiet,List.append_nil]
  refine ⟨inv.begun,orderMore inv.order _,null.trans inv.null,?_,?_,?_,?_⟩ <;> rw [same]
  · exact fun late => inv.unborn (Nat.le_trans count late)
  · intro i w n is target
    obtain ⟨shape,order⟩ := inv.busy i w n ((sending i w n target).mp is) target
    exact ⟨shape,orderMore order _⟩
  · intro alive none'
    rw [live] at alive
    refine inv.idle alive (fun i w n is target => ?_)
    exact none' i w n ((sending i w n target).mpr is) target
  · intro gone
    rw [live] at gone
    obtain ⟨r,part,shape,initial,first,order⟩ := inv.dead gone
    exact ⟨r,part,shape,initial,first,fun some' => orderMore (order some') _⟩

theorem frameRest (begun : Begun rs) (order : (rs.map Reply.bytes).Sublist (lockOrder f log))
    (null : (σ.session f).type = .null ↔ rs = []) (unborn : σ.count ≤ f → stream f log = [])
    (whole : stream f log = rs.flatMap Reply.bytes)
    (none' : ∀ i w n, (σ.pc i).sending = some (w,n) → w.target ≠ f) : FrameAt σ log f rs := by
  refine ⟨begun,order,null,unborn,fun i w n is target => absurd target (none' i w n is),
    fun _ _ => whole,fun _ => ?_⟩
  refine ⟨if rs = [] then .token .zero else .keepAlive,[],by simp [whole],by simp,?_,by simp⟩
  split <;> simp_all [Reply.isToken]

theorem sendingPlace {p : Pc} {w n} (is : p.sending = some (w,n)) : p = .writeSend w n := by
  cases p with
  | writeSend w' n' => cases is; rfl
  | _ => cases is

theorem sendingWrites {p : Pc} {w n} (is : p.sending = some (w,n)) : p.write = some w := by
  rw [sendingPlace is]
  rfl

theorem sendingActs {w n k} (taken : step cfg σ a = some (σ',es)) (is : (σ.pc k).sending = some (w,n))
    (mine : a.task = some k) : (∃ m, a = .send k m) ∨ ∃ res, a = .sendReturn k res := by
  have pc : σ.pc k = .writeSend w n := sendingPlace is
  cases a with
  | send i m => cases mine; exact .inl ⟨m,rfl⟩
  | sendReturn i res => cases mine; exact .inr ⟨res,rfl⟩
  | recvToken i mt random =>
    cases mine
    have reads := recvTokenReads taken
    rw [pc] at reads
    contradiction
  | accept fd => contradiction
  | refuse fd => contradiction
  | reload tokens => contradiction
  | _ => cases mine; simp [step,lock,wake,relay,pc] at taken

def Apart (σ : Server) (a : Action) (f : Sid) : Prop :=
  ∀ k w, (σ.pc k).write = some w → w.target = f →
    a ≠ .lock k ∧ (∀ n, a ≠ .send k n) ∧ ∀ res, a ≠ .sendReturn k res

theorem sendingKept (reg : Registry σ) (taken : step cfg σ a = some (σ',es)) (apart : Apart σ a f)
    {k w n} (target : w.target = f) :
    (σ'.pc k).sending = some (w,n) ↔ (σ.pc k).sending = some (w,n) := by
  have move := stepMoves taken
  constructor
  · intro is
    have arrives := arrivesMoves reg move (j := k)
    generalize σ'.pc k = p at arrives is
    cases arrives with
    | stays away => exact is
    | enters is' pc next logged => cases next <;> simp [Pc.sending] at is
    | @locks w' is' pc free logged =>
      cases Option.some.inj is
      exact absurd is' (apart k w' (by rw [pc]; rfl) target).1
    | sends is' pc positive room valid logged =>
      cases Option.some.inj is
      exact absurd is' ((apart k w (by rw [pc]; rfl) target).2.1 _)
    | _ => simp [Pc.sending] at is
  · intro is
    have pc : σ.pc k = .writeSend w n := sendingPlace is
    have writes := sendingWrites is
    have old : k ≠ σ.count := by
      intro same
      simp [reg.ahead k (Nat.le_of_eq same.symm)] at pc
    by_cases mine : a.task = some k
    · rcases sendingActs taken is mine with ⟨m,act⟩ | ⟨res,act⟩
      · exact absurd act ((apart k w writes target).2.1 m)
      · exact absurd act ((apart k w writes target).2.2 res)
    · rw [placeMoves move mine old]
      exact is

theorem nullKept (reg : Registry σ) (move : Moves cfg σ a σ' es) (old : f ≠ σ.count)
    (other : ∀ res, a ≠ .sendReturn f res) :
    (σ'.session f).type = .null ↔ (σ.session f).type = .null := by
  obtain ⟨s,lock,change,session⟩ := changesMoves reg move f
  rw [session]
  cases change with
  | opened fresh nobody => exact absurd fresh old
  | forward is pc done after => exact absurd is (other _)
  | connect is pc done after logged => exact absurd is (other _)
  | evicted came allowed found logged =>
    simp [(loginFinds (loginTokenPlace reg came).2.1 found).2.2.1]
  | spliced pass found logged => simp [(findSound found).2.1]
  | _ => rfl

theorem liveKept (reg : Registry σ) (move : Moves cfg σ a σ' es) (old : f ≠ σ.count)
    (other : closes σ a ≠ some f) : (σ'.session f).live = (σ.session f).live := by
  obtain ⟨s,lock,change,session⟩ := changesMoves reg move f
  rw [session]
  cases change with
  | opened fresh nobody => exact absurd fresh old
  | closed ending => exact absurd ending other
  | handed pass ending => exact absurd ending other
  | _ => rfl

theorem streamQuiet (run : Run (machine cfg) Unbroken σ log) (talk : Talk f log)
    (move : Moves cfg σ a σ' es)
    (quiet : ∀ k w n, (σ.pc k).write = some w → w.target = f → a ≠ .send k n) :
    stream f (es.map (σ,·)) = [] := by
  refine List.flatMap_eq_nil_iff.mpr (fun entry mem => ?_)
  obtain ⟨e,inside,rfl⟩ := List.mem_map.mp mem
  cases movesLogs move inside with
  | plain is => cases e <;> first | rfl | cases is
  | @sent i w sent n conn is pc room valid pc' =>
    have writes : (σ.pc i).write = some w := by rw [pc]; rfl
    have reaches := (writersSafe (fun _ _ h => h.1.2) run i w writes).2.2
    rw [valid] at reaches
    cases reaches
    have other : w.target ≠ f := fun target => quiet i w n writes target is
    simp [Event.streamTo,other]
  | @relayed i c r conn data pc valid =>
    have other : conn ≠ f := by
      rintro rfl
      exact relayedElsewhere run talk move i data inside
    simp [Event.streamTo,other]
  | _ => rfl

theorem nullUnborn (reg : Registry σ) (move : Moves cfg σ a σ' es) (born : f = σ.count) :
    (σ.session f).type = .null ∧ (σ'.session f).type = .null := by
  have absent := reg.ahead f (Nat.le_of_eq born.symm)
  have fits := reg.fits f
  have null : (σ.session f).type = .null := by simpa [absent,Fits] using fits
  refine ⟨null,?_⟩
  obtain ⟨s,lock,change,session⟩ := changesMoves reg move f
  rw [session]
  cases change with
  | opened fresh nobody => rfl
  | forward is pc done after => simp [absent] at pc
  | connect is pc done after logged => simp [absent] at pc
  | evicted came allowed found logged =>
    simp [(loginFinds (loginTokenPlace reg came).2.1 found).2.2.1] at null
  | spliced pass found logged => simp [(findSound found).2.1] at null
  | _ => exact null

theorem closedIdle (reg : Registry σ) (undisturbed : Undisturbed σ a)
    (taken : step cfg σ a = some (σ',es)) (apart : Apart σ a f) (ending : closes σ a = some f) :
    ∀ k w n, (σ.pc k).sending = some (w,n) → w.target ≠ f := by
  intro k w n is target
  have writes := sendingWrites is
  by_cases own : k = f
  · subst own
    rcases sendingActs taken is (closesTask ending) with ⟨m,act⟩ | ⟨res,act⟩
    · exact (apart k w writes target).2.1 m act
    · exact (apart k w writes target).2.2 res act
  · simp only [Undisturbed,ending] at undisturbed
    exact undisturbed k (registryBelow reg (writeRuns writes)) own w writes target

theorem frameApart (run : Run (machine cfg) Unbroken σ log) (allowed : Unbroken σ a)
    (taken : step cfg σ a = some (σ',es)) (talk : Talk f log) (apart : Apart σ a f)
    (inv : FrameAt σ log f rs) : FrameAt σ' (log ++ es.map (σ,·)) f rs := by
  have reg := registryRun run
  have move := stepMoves taken
  have quiet := streamQuiet run talk move (fun k w n writes target => (apart k w writes target).2.1 n)
  have count := countMoves move
  have sending : ∀ k w n, w.target = f →
      ((σ'.pc k).sending = some (w,n) ↔ (σ.pc k).sending = some (w,n)) :=
    fun k w n target => sendingKept reg taken apart target
  have same : stream f (log ++ es.map (σ,·)) = stream f log := by
    rw [streamAppend,quiet,List.append_nil]
  by_cases born : f = σ.count
  · obtain ⟨null,null'⟩ := nullUnborn reg move born
    have empty := inv.null.mp null
    have silent := inv.unborn (Nat.le_of_eq born.symm)
    subst empty
    refine frameRest trivial (List.nil_sublist _) (by simp [null']) (fun _ => same.trans silent)
      (same.trans silent) (fun k w n is target => ?_)
    have writes := sendingWrites ((sending k w n target).mp is)
    have low := ((writingRun run k).shape w writes).1
    exact absurd (target.trans born) (Nat.ne_of_lt low)
  · have null := nullKept reg move born (fun res is => ?_)
    · cases live : (σ.session f).live with
      | false =>
        exact frameSame inv quiet sending ((deadKept reg move born live).trans live.symm) null count
      | true =>
        by_cases ending : closes σ a = some f
        · have idle := closedIdle reg allowed.1.2 taken apart ending
          refine frameRest inv.begun (orderMore inv.order _) (null.trans inv.null) ?_ ?_ ?_
          · exact fun late => same.trans (inv.unborn (Nat.le_trans count late))
          · exact same.trans (inv.idle live idle)
          · exact fun k w n is target => idle k w n ((sending k w n target).mp is) target
        · exact frameSame inv quiet sending (liveKept reg move born ending) null count
    · subst is
      cases pc : σ.pc f with
      | writeSend w sent =>
        have writes : (σ.pc f).write = some w := by rw [pc]; rfl
        exact (apart f w writes (talksOwn run talk writes)).2.2 res rfl
      | _ => simp [step,sendReturn,pc] at taken

theorem soleSender (writing : ∀ i, WritingAt σ i) {i k : Sid} {w w' : Write} {n m : Nat}
    (pc : σ.pc i = .writeSend w n) (is : (σ.pc k).sending = some (w',m)) (meet : w'.target = w.target) :
    k = i := by
  have mine := ((writing i).lock w n pc).1
  have theirs := ((writing k).lock w' m (sendingPlace is)).1
  rw [meet,mine] at theirs
  exact (Option.some.inj theirs).symm

theorem frameLocks (run : Run (machine cfg) Unbroken σ log) {i w} (pc : σ.pc i = .writeLock w)
    (free : (σ.session w.target).wlock = none) (target : w.target = f)
    (moved : Moves cfg σ (.lock i) σ' [.locked i w.target w.bytes])
    (pcs : ∃ fd, σ'.pc = Function.update σ.pc i (.writeSend {w with fd := fd} 0))
    (talk : Talk f log) (inv : FrameAt σ log f rs) :
    FrameAt σ' (log ++ [(σ,.locked i w.target w.bytes)]) f rs := by
  have reg := registryRun run
  have writes : (σ.pc i).write = some w := by rw [pc]; rfl
  have low : f < σ.count := target ▸ ((writingRun run i).shape w writes).1
  have live : (σ.session f).live = true :=
    target ▸ (writersSafe (fun _ _ h => h.1.2) run i w writes).1
  have idle : ∀ k w' n, (σ.pc k).sending = some (w',n) → w'.target ≠ f := by
    intro k w' n is meet
    have held := ((writingRun run k).lock w' n (sendingPlace is)).1
    rw [meet,← target,free] at held
    contradiction
  have quiet := streamQuiet run talk moved (fun _ _ _ _ _ => by simp)
  have same : stream f (log ++ [(σ,.locked i w.target w.bytes)]) = stream f log := by
    rw [streamAppend]
    simpa using quiet
  have order : lockOrder f (log ++ [(σ,.locked i w.target w.bytes)]) = lockOrder f log ++ [w.bytes] := by
    simp [lockOrder,Event.lockedFor,target]
  obtain ⟨fd,pcs⟩ := pcs
  refine ⟨inv.begun,orderMore inv.order _,?_,?_,?_,?_,?_⟩
  · exact (nullKept reg moved (Nat.ne_of_lt low) (by simp)).trans inv.null
  · exact fun late => absurd low (Nat.not_lt.mpr (Nat.le_trans (countMoves moved) late))
  · intro k w' n is meet
    rw [same,order,inv.idle live idle]
    by_cases mine : k = i
    · subst mine
      rw [pcs,Function.update_self] at is
      cases Option.some.inj is
      exact ⟨by simp,inv.order.append (List.Sublist.refl _)⟩
    · rw [pcs,Function.update_of_ne mine] at is
      exact absurd meet (idle k w' n is)
  · intro _ none'
    exact absurd target (none' i {w with fd := fd} 0 (by rw [pcs,Function.update_self]; rfl))
  · intro gone
    have kept := liveKept reg moved (Nat.ne_of_lt low) (by simp [closes])
    rw [kept,live] at gone
    contradiction

theorem frameSends (run : Run (machine cfg) Unbroken σ log) {i w sent n conn}
    (pc : σ.pc i = .writeSend w sent) (valid : σ.fds w.fd = some conn) (target : w.target = f)
    (moved : Moves cfg σ (.send i n) (σ.setPc i (.writeSend w (sent + n)))
      [.sent i conn ((w.bytes.drop sent).take n)]) (inv : FrameAt σ log f rs) :
    FrameAt (σ.setPc i (.writeSend w (sent + n)))
      (log ++ [(σ,.sent i conn ((w.bytes.drop sent).take n))]) f rs := by
  have writes : (σ.pc i).write = some w := by rw [pc]; rfl
  have low : f < σ.count := target ▸ ((writingRun run i).shape w writes).1
  obtain ⟨live,_,reaches⟩ := writersSafe (fun _ _ h => h.1.2) run i w writes
  rw [valid,target] at reaches
  cases reaches
  obtain ⟨whole,order⟩ := inv.busy i w sent (by rw [pc]; rfl) target
  have grown : stream f (log ++ [(σ,.sent i f ((w.bytes.drop sent).take n))]) =
      rs.flatMap Reply.bytes ++ w.bytes.take (sent + n) := by
    rw [streamAppend,whole,List.take_add]
    simp [stream,Event.streamTo]
  refine ⟨inv.begun,orderMore inv.order _,inv.null,?_,?_,?_,?_⟩
  · exact fun late => absurd low (Nat.not_lt.mpr late)
  · intro k w' m is meet
    by_cases mine : k = i
    · subst mine
      simp only [setPcPc,Function.update_self] at is
      cases Option.some.inj is
      exact ⟨grown,orderMore order _⟩
    · simp only [setPcPc,Function.update_of_ne mine] at is
      exact absurd (soleSender (writingRun run) pc is (meet.trans target.symm)) mine
  · intro _ none'
    exact absurd target (none' i w (sent + n) (by simp [Pc.sending]))
  · intro gone
    rw [target] at live
    simp [live] at gone

theorem frameWhole (run : Run (machine cfg) Unbroken σ log) {i w sent res}
    (pc : σ.pc i = .writeSend w sent) (target : w.target = f) (talk : Talk f log)
    (moved : Moves cfg σ (.sendReturn i res) σ' es) (whole : sent = w.bytes.length)
    (none' : ∀ k w n, (σ'.pc k).sending = some (w,n) → w.target ≠ f)
    (typed : (σ'.session f).type ≠ .null) (inv : FrameAt σ log f rs) :
    ∃ rs', FrameAt σ' (log ++ es.map (σ,·)) f rs' := by
  have writes : (σ.pc i).write = some w := by rw [pc]; rfl
  have low : f < σ.count := target ▸ ((writingRun run i).shape w writes).1
  obtain ⟨r,bytes,first⟩ := writeReply run talk writes target
  obtain ⟨shape,order⟩ := inv.busy i w sent (by rw [pc]; rfl) target
  have quiet := streamQuiet run talk moved (fun _ _ _ _ _ => by simp)
  rw [whole,List.take_length] at shape
  refine ⟨rs ++ [r],frameRest (begunSnoc inv.begun (first.trans inv.null)) ?_ ?_ ?_ ?_ none'⟩
  · refine orderMore ?_ _
    simpa [bytes] using order
  · simp [typed]
  · exact fun late => absurd low (Nat.not_lt.mpr (Nat.le_trans (countMoves moved) late))
  · rw [streamAppend,quiet,List.append_nil,shape]
    simp [bytes]

theorem returnsIdle (run : Run (machine cfg) Unbroken σ log) {i w sent res}
    (pc : σ.pc i = .writeSend w sent) (target : w.target = f)
    (moved : Moves cfg σ (.sendReturn i res) σ' es) :
    ∀ k w' n, (σ'.pc k).sending = some (w',n) → w'.target ≠ f := by
  intro k w' n is meet
  have arrives := arrivesMoves (registryRun run) moved (j := k)
  generalize σ'.pc k = p at arrives is
  cases arrives with
  | stays away =>
    have mine := soleSender (writingRun run) pc is (meet.trans target.symm)
    obtain ⟨toRemote,data,act⟩ := away (by rw [mine]; rfl)
    contradiction
  | enters is' pc next logged => contradiction
  | locks is' pc free logged => contradiction
  | sends is' pc positive room valid logged => contradiction
  | _ => simp [Pc.sending] at is

theorem frameCloses (run : Run (machine cfg) Unbroken σ log) {w sent res}
    (pc : σ.pc f = .writeSend w sent) (target : w.target = f) (talk : Talk f log)
    (moved : Moves cfg σ (.sendReturn f res) (closeSession cfg (unlock σ w.target) f) es)
    (inv : FrameAt σ log f rs) :
    FrameAt (closeSession cfg (unlock σ w.target) f) (log ++ es.map (σ,·)) f rs := by
  have writes : (σ.pc f).write = some w := by rw [pc]; rfl
  have low : f < σ.count := target ▸ ((writingRun run f).shape w writes).1
  have none' := returnsIdle run pc target moved
  obtain ⟨r,bytes,first⟩ := writeReply run talk writes target
  obtain ⟨shape,order⟩ := inv.busy f w sent (by rw [pc]; rfl) target
  have quiet := streamQuiet run talk moved (fun _ _ _ _ _ => by simp)
  refine ⟨inv.begun,orderMore inv.order _,?_,?_,?_,?_,?_⟩
  · rw [← inv.null]
    simp [unlockSession]
  · exact fun late => absurd low (Nat.not_lt.mpr (Nat.le_trans (countMoves moved) late))
  · exact fun k w' n is meet => absurd meet (none' k w' n is)
  · intro live
    simp at live
  · intro _
    refine ⟨r,w.bytes.take sent,?_,?_,first.trans inv.null,fun _ => orderMore ?_ _⟩
    · rw [streamAppend,quiet,List.append_nil,shape]
    · rw [bytes]
      exact List.take_prefix _ _
    · rw [bytes]
      exact order

theorem frameUnsent (run : Run (machine cfg) Unbroken σ log) {i w sent res mt}
    (pc : σ.pc i = .writeSend w sent) (target : w.target = f) (talk : Talk f log)
    (after : w.after = .connect mt) (none : sent = 0)
    (moved : Moves cfg σ (.sendReturn i res) (closeSession cfg (unlock σ w.target) i) es)
    (inv : FrameAt σ log f rs) :
    FrameAt (closeSession cfg (unlock σ w.target) i) (log ++ es.map (σ,·)) f rs := by
  obtain ⟨low,shape⟩ := (writingRun run i).shape w (by rw [pc]; rfl)
  simp only [WriteShape,after] at shape
  have other : f ≠ i := target ▸ shape.1
  have quiet := streamQuiet run talk moved (fun _ _ _ _ _ => by simp)
  obtain ⟨part,_⟩ := inv.busy i w sent (by rw [pc]; rfl) target
  refine frameRest inv.begun (orderMore inv.order _) ?_ ?_ ?_ (returnsIdle run pc target moved)
  · rw [← inv.null]
    simp [Function.update_of_ne other,unlockSession]
  · exact fun late => absurd (target ▸ low) (Nat.not_lt.mpr (Nat.le_trans (countMoves moved) late))
  · rw [streamAppend,quiet,List.append_nil,part,none]
    simp

theorem frameReturns (run : Run (machine cfg) Unbroken σ log) {i w sent res}
    (allowed : Unbroken σ (.sendReturn i res)) (pc : σ.pc i = .writeSend w sent)
    (target : w.target = f) (talk : Talk f log) (moved : Moves cfg σ (.sendReturn i res) σ' es)
    (inv : FrameAt σ log f rs) : ∃ rs', FrameAt σ' (log ++ es.map (σ,·)) f rs' := by
  have reg := registryRun run
  have writes : (σ.pc i).write = some w := by rw [pc]; rfl
  have shape := ((writingRun run i).shape w writes).2
  have whole := sentWhole allowed.1.1 pc
  have typed : (σ.session f).type ≠ .null → (σ'.session f).type ≠ .null := mt (nullBefore reg moved)
  have none' := returnsIdle run pc target moved
  have grows := fun full type => frameWhole run pc target talk moved full none' type inv
  -- what a message that is not a login reply says about `f`
  have known : (∀ ver, w.after ≠ .login ver) → (σ.session f).type ≠ .null := by
    intro other
    cases after : w.after with
    | login ver => exact absurd after (other ver)
    | connect mt => exact target ▸ targetTyped run i w mt writes after
    | keepAlive =>
      simp only [WriteShape,after] at shape
      have own : i = f := shape.1.symm.trans target
      exact talksWrite (talksRun run talk) (own ▸ writes) after
  cases moved with
  | hangsUp ending => cases ending
  | loginRejected came has unlisted => cases came
  | loginFresh came free missing => cases came
  | loginEvicts came free found => cases came
  | acceptOver pass => cases pass
  | acceptWaits pass left missing => cases pass
  | acceptMatches pass left found => cases pass
  | @writeFails i w' sent' res pc' fail =>
    cases pc.symm.trans pc'
    cases after : w.after with
    | connect mt =>
      rcases cutWhole allowed.2 pc after fail with none | full
      · exact ⟨rs,frameUnsent run pc target talk after none (.writeFails pc fail) inv⟩
      · exact grows full (typed (known (by simp [after])))
    | login ver =>
      simp only [WriteShape,after] at shape
      have own : i = f := shape.1.symm.trans target
      subst own
      exact ⟨rs,frameCloses run pc target talk (.writeFails pc fail) inv⟩
    | keepAlive =>
      simp only [WriteShape,after] at shape
      have own : i = f := shape.1.symm.trans target
      subst own
      exact ⟨rs,frameCloses run pc target talk (.writeFails pc fail) inv⟩
  | @loginRegisters i w' sent' res ver pc' done is =>
    cases pc.symm.trans pc'
    simp only [WriteShape,is] at shape
    have own : i = f := shape.1.symm.trans target
    refine grows (whole done) ?_
    simp [← own,forwardSession]
  | @connectWaits i w' sent' res mt pc' done is left unset =>
    cases pc.symm.trans pc'
    exact grows (whole done) (typed (known (by simp [is])))
  | @connectRelays i w' sent' res mt pc' done is leaves =>
    cases pc.symm.trans pc'
    exact grows (whole done) (typed (known (by simp [is])))
  | @kept i w' sent' res pc' done is =>
    cases pc.symm.trans pc'
    exact grows (whole done) (typed (known (by simp [is])))

theorem frameNext (run : Run (machine cfg) Unbroken σ log) (allowed : Unbroken σ a)
    (taken : step cfg σ a = some (σ',es)) (talk : Talk f log) (inv : FrameAt σ log f rs) :
    ∃ rs', FrameAt σ' (log ++ es.map (σ,·)) f rs' := by
  have move := stepMoves taken
  by_cases apart : Apart σ a f
  · exact ⟨rs,frameApart run allowed taken talk apart inv⟩
  · simp only [Apart,not_forall,not_and_or,not_not,exists_prop] at apart
    obtain ⟨k,w,writes,target,act⟩ := apart
    rcases act with rfl | ⟨n,rfl⟩ | ⟨res,rfl⟩
    · simp only [step,lock] at taken
      split at taken <;> try contradiction
      rename_i pc
      split at taken <;> try contradiction
      rename_i free
      cases Option.some.inj taken
      rw [pc] at writes
      cases writes
      exact ⟨rs,frameLocks run pc free target move ⟨_,rfl⟩ talk inv⟩
    · simp only [step,send] at taken
      split at taken <;> try contradiction
      rename_i pc
      split at taken <;> try contradiction
      obtain ⟨conn,valid,taken⟩ := Option.bind_eq_some_iff.mp taken
      cases Option.some.inj taken
      rw [pc] at writes
      cases writes
      exact ⟨rs,frameSends run pc valid target move inv⟩
    · cases pc : σ.pc k with
      | writeSend w' sent =>
        rw [pc] at writes
        cases writes
        exact frameReturns run allowed pc target talk move inv
      | _ => simp [step,sendReturn,pc] at taken

end frames

section streams
variable {cfg : Config} {σ : Server} {log : Log Server Event} {f : Sid}

theorem frameRun (run : Run (machine cfg) Unbroken σ log) (talk : Talk f log) :
    ∃ rs, FrameAt σ log f rs := by
  refine runInvariant (P := fun σ log => Talk f log → ∃ rs, FrameAt σ log f rs) ?_ ?_ run talk
  · intro _
    refine ⟨[],frameRest trivial (List.nil_sublist _) (by simp [machine,init,unborn]) (fun _ => rfl)
      rfl ?_⟩
    simp [machine,init,Pc.sending]
  · intro s log a s' es run allowed taken inv talk
    have before := talkInitial talk
    obtain ⟨rs,inv⟩ := inv before
    exact frameNext run allowed taken before inv

theorem abandonedSilent (run : Run (machine cfg) Unbroken σ log) (talk : Talk f log)
    {before after : Log Server Event} {σ₁ i bytes sent res}
    (split : log = before ++ (σ₁,.returned i f bytes sent res) :: after)
    (some' : 0 < sent) (part : sent < bytes.length) :
    f < σ.count ∧ (σ.session f).live = false ∧ stream f after = [] := by
  induction run generalizing after with
  | start => simp at split
  | @next σ log a σ' es run allowed taken ih =>
    have move := stepMoves taken
    have reg := registryRun run
    have talk' := talkInitial talk
    rcases splitNext split with ⟨rest,old,tail⟩ | ⟨es₁,es₂,shape,same,left,right⟩
    · obtain ⟨low,dead,silent⟩ := ih talk' old
      have nobody : ∀ k w n, (σ.pc k).write = some w → w.target = f → a ≠ .send k n := by
        intro k w n writes target
        have live := (writersSafe (fun _ _ h => h.1.2) run k w writes).1
        rw [target,dead] at live
        contradiction
      refine ⟨Nat.lt_of_lt_of_le low (countMoves move),deadKept reg move (Nat.ne_of_lt low) dead,?_⟩
      rw [tail,streamAppend,silent,streamQuiet run talk' move nobody]
      rfl
    · have mem : .returned i f bytes sent res ∈ es := by simp [shape]
      cases movesLogs move mem with
      | plain is => contradiction
      | @returned i w sent res is pc =>
        subst is
        have writes : (σ.pc i).write = some w := by rw [pc]; rfl
        have low := ((writingRun run i).shape w writes).1
        have fail : res ≤ 0 := by
          refine Int.not_lt.mp (fun done => ?_)
          exact Nat.lt_irrefl _ (sentWhole allowed.1.1 pc done ▸ part)
        have own : w.target = i := by
          rcases ownTarget ((writingRun run i).shape w writes).2 with own | ⟨mt,after⟩
          · exact own
          · have := cutWhole allowed.2 pc after fail
            omega
        refine ⟨Nat.lt_of_lt_of_le low (countMoves move),?_,?_⟩
        · change step cfg σ (.sendReturn i res) = some (σ',es) at taken
          simp only [step,sendReturn,pc,if_pos fail] at taken
          cases Option.some.inj taken
          simp [own]
        · have quiet := streamQuiet run talk' move (fun _ _ _ _ _ => by simp)
          rw [shape,List.append_cons,List.map_append,streamAppend,← right] at quiet
          exact (List.append_eq_nil_iff.mp quiet).2

structure Delivers (log : Log Server Event) (f : Sid) (rs : List Reply) (r : Reply) (part : Bytes) :
    Prop where
  bytes : stream f log = rs.flatMap Reply.bytes ++ part
  unfinished : part <+: r.bytes ∧ part ≠ r.bytes
  kinds : Begun (rs ++ [r])
  order : ((if part = [] then rs else rs ++ [r]).map Reply.bytes).Sublist (lockOrder f log)
  decoded : (read .start (stream f log)).reading ≠ .stopped ∧
    (read .start (stream f log)).heard = rs

structure InFrames (log : Log Server Event) (f : Sid) : Prop where
  delivers : ∃ rs r part, Delivers log f rs r part
  abandoned : ∀ before σ₁ i bytes sent res after,
    log = before ++ (σ₁,.returned i f bytes sent res) :: after → 0 < sent → sent < bytes.length →
      stream f after = []

theorem deliversPart {rs : List Reply} {r : Reply} {part : Bytes} (begun : Begun rs)
    (first : r.isToken = true ↔ rs = []) (bytes : stream f log = rs.flatMap Reply.bytes ++ part)
    (initial : part <+: r.bytes)
    (less : part ≠ r.bytes) (whole : (rs.map Reply.bytes).Sublist (lockOrder f log))
    (next : part ≠ [] → (rs.map Reply.bytes ++ [r.bytes]).Sublist (lockOrder f log)) :
    Delivers log f rs r part where
  bytes := bytes
  unfinished := ⟨initial,less⟩
  kinds := begunSnoc begun first
  order := by
    split
    · exact whole
    · rename_i some'
      simpa using next some'
  decoded := by
    rw [bytes]
    exact readFramed (begunSnoc begun first) initial less

theorem deliversWhole {rs} (begun : Begun rs) (bytes : stream f log = rs.flatMap Reply.bytes)
    (whole : (rs.map Reply.bytes).Sublist (lockOrder f log)) : ∃ rs r part, Delivers log f rs r part := by
  refine ⟨rs,if rs = [] then .token .zero else .keepAlive,[],?_⟩
  refine deliversPart begun ?_ (by simp [bytes]) (List.nil_prefix) ?_ whole (by simp)
  · split <;> simp_all [Reply.isToken]
  · split <;> simp [Reply.bytes,message]

theorem deliversNext {rs : List Reply} {r : Reply} {part : Bytes} (begun : Begun rs)
    (first : r.isToken = true ↔ rs = []) (bytes : stream f log = rs.flatMap Reply.bytes ++ part)
    (initial : part <+: r.bytes)
    (whole : (rs.map Reply.bytes).Sublist (lockOrder f log))
    (next : part ≠ [] → (rs.map Reply.bytes ++ [r.bytes]).Sublist (lockOrder f log)) :
    ∃ rs r part, Delivers log f rs r part := by
  by_cases full : part = r.bytes
  · have some' : part ≠ [] := by rw [full]; cases r <;> simp [Reply.bytes,message]
    refine deliversWhole (begunSnoc begun first) ?_ (by simpa using next some')
    simp [bytes,full]
  · exact ⟨rs,r,part,deliversPart begun first bytes initial full whole next⟩

theorem framesKept (cfg : Config) (σ : Server) (log : Log Server Event)
    (run : Run (machine cfg) Unbroken σ log) (f : Sid) (talk : Talk f log) : InFrames log f := by
  refine ⟨?_,fun before σ₁ i bytes sent res after split some' part =>
    (abandonedSilent run talk split some' part).2.2⟩
  obtain ⟨rs,inv⟩ := frameRun run talk
  by_cases sending : ∃ i w n, (σ.pc i).sending = some (w,n) ∧ w.target = f
  · obtain ⟨i,w,n,is,target⟩ := sending
    obtain ⟨shape,order⟩ := inv.busy i w n is target
    obtain ⟨r,bytes,first⟩ := writeReply run talk (sendingWrites is) target
    rw [← bytes] at shape order
    exact deliversNext inv.begun (first.trans inv.null) shape (List.take_prefix _ _) inv.order
      (fun _ => order)
  · have idle : ∀ i w n, (σ.pc i).sending = some (w,n) → w.target ≠ f :=
      fun i w n is target => sending ⟨i,w,n,is,target⟩
    cases live : (σ.session f).live with
    | true => exact deliversWhole inv.begun (inv.idle live idle) inv.order
    | false =>
      obtain ⟨r,part,shape,initial,first,next⟩ := inv.dead live
      exact deliversNext inv.begun first shape initial inv.order next

end streams

instance (f : Sid) (log : Log Server Event) : Decidable (Talk f log) :=
  @instDecidableAnd _ _ (Option.decidableForallMem _) (List.decidableBAll _ _)

theorem framesKeptBusy : ∃ σ log, Run (machine (plainConfig 120 none)) Unbroken σ log ∧
    (stream 0 log).length = 43 ∧ ∃ rs r part, Delivers log 0 rs r part := by
  obtain ⟨σ,log,run,shows⟩ := replayReaches (machine (plainConfig 120 none)) Unbroken
    (loginActions 0 5 2 (tokenOf 7) ++ connectActions 1 6 (tokenOf 7) .zero ++
      ([.lock 1,.send 1 5,.recvMessage 0 (some (2,2)) .zero,.send 1 13,.sendReturn 1 18,
        .lock 0,.send 0 2,.sendReturn 0 2] : List Action) ++ connectActions 2 7 (tokenOf 7) .zero ++
      ([.lock 2,.send 2 5] : List Action))
    (fun r => Talk 0 r.2 ∧ (stream 0 r.2).length = 43) (by decide)
  obtain ⟨talk,size⟩ := of_decide_eq_true shows
  exact ⟨σ,log,run,size,(framesKept (plainConfig 120 none) σ log run 0 talk).delivers⟩

set_option maxRecDepth 2000 in
theorem framesLost : ¬ ∀ cfg σ log, Run (machine cfg) WholeSends σ log → ∀ f, Talk f log →
    InFrames log f := by
  intro framed
  obtain ⟨σ,log,run,shows⟩ := replayReaches (machine (plainConfig 120 none)) WholeSends
    (loginActions 0 5 2 (tokenOf 7) ++ connectActions 1 6 (tokenOf 7) .zero ++
      ([.lock 1,.send 1 5,.sendReturn 1 (-2)] : List Action) ++ connectActions 2 7 (tokenOf 7) .zero ++
      ([.lock 2,.send 2 18] : List Action))
    (fun r => Talk 0 r.2 ∧ (read .start (stream 0 r.2)).reading = .stopped) (by decide)
  obtain ⟨talk,stopped⟩ := of_decide_eq_true shows
  obtain ⟨rs,r,part,known⟩ := (framed _ σ log run 0 talk).delivers
  exact known.decoded.1 stopped

end HevFsh.SessionTask
