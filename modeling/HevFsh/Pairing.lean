import HevFsh.Isolation
import HevFsh.Logins
import HevFsh.Splice

/-! Accepts and the connectors they are paired with. A connector looks its
forwarder up, writes to it, and registers only afterwards; the history between
these steps is what an accept relies on. -/
namespace HevFsh.SessionTask
open SearchTree Protocol SessionManager Transitions

def WholeSends (σ : Server) (a : Action) : Prop :=
  ∀ x ∈ a.returns, ∀ y ∈ (σ.pc x.1).sending, 0 < x.2 → y.2 = y.1.bytes.length

instance (σ : Server) (a : Action) : Decidable (WholeSends σ a) := by
  unfold WholeSends; infer_instance

theorem sentWhole {σ i res w sent} (whole : WholeSends σ (.sendReturn i res))
    (pc : σ.pc i = .writeSend w sent) (done : 0 < res) : sent = w.bytes.length :=
  whole (i,res) rfl (w,sent) (by rw [pc]; rfl) done

def Event.sentTo (i conn : Sid) : Event → Bytes
  | .sent j c bytes => if j = i ∧ c = conn then bytes else []
  | _ => []

def sentTo (i conn : Sid) (log : Log Server Event) : Bytes := log.flatMap (fun e => e.2.sentTo i conn)

def Pc.sent : Pc → Nat
  | .writeSend _ n => n
  | _ => 0

/- Connector `i` presented `p` and found `f`; `later` is the history from then on,
which starts with the token it was given and announces. -/
structure Announcing (log : Log Server Event) (i f : Sid) (t : Token) (early : Log Server Event)
    (σ₀ : Server) (p : Token) (later : Log Server Event) : Prop where
  split : log = early ++ (σ₀,Event.lookup i .connect .forward p (some f)) :: later
  reads : σ₀.pc i = .connectRecv
  presented : (σ₀,Event.token i .connect p) ∈ early
  forwarder : f ∈ σ₀.tree.inorder ∧ (σ₀.session f).type = .forward ∧ (σ₀.session f).token = p
  version : ∀ v, LoggedIn early f v → (σ₀.session f).isTempToken = decide (v = 3)
  given : ∃ rest, later = (generatedEvents σ₀ i f t ++ [Event.announced i f t]).map (σ₀,·) ++ rest

structure Announced (log : Log Server Event) (i f : Sid) (t : Token) (early : Log Server Event)
    (σ₀ : Server) (p : Token) (between : Log Server Event) (σ₁ : Server) (later : Log Server Event) :
    Prop where
  found : Announcing log i f t early σ₀ p (between ++ (σ₁,.registered i .connect t) :: later)
  written : sentTo i f between = message 1 .connect t.bytes

section announce
variable {log early later between : Log Server Event} (more : Log Server Event) {i f : Sid}
    {t p : Token} {σ₀ σ₁ : Server}

theorem sentToAppend : sentTo i f (log ++ more) = sentTo i f log ++ sentTo i f more := by
  simp [sentTo]

theorem announcingMono (known : Announcing log i f t early σ₀ p later) :
    Announcing (log ++ more) i f t early σ₀ p (later ++ more) where
  split := by simp [known.split]
  reads := known.reads
  presented := known.presented
  forwarder := known.forwarder
  version := known.version
  given := by
    obtain ⟨rest,shape⟩ := known.given
    exact ⟨rest ++ more,by rw [shape,List.append_assoc]⟩

theorem announcedMono (known : Announced log i f t early σ₀ p between σ₁ later) :
    Announced (log ++ more) i f t early σ₀ p between σ₁ (later ++ more) where
  found := by simpa using announcingMono more known.found
  written := known.written

theorem announcingLogged (known : Announcing log i f t early σ₀ p later) :
    (σ₀,Event.announced i f t) ∈ log := by
  obtain ⟨rest,shape⟩ := known.given
  simp [known.split,shape]

end announce

structure Announces (σ : Server) (log : Log Server Event) : Prop where
  writing : ∀ i w t, (σ.pc i).write = some w → w.after = .connect t →
    ∃ early σ₀ p later, Announcing log i w.target t early σ₀ p later ∧
      sentTo i w.target later = w.bytes.take (σ.pc i).sent
  connector : ∀ i, (σ.session i).type = .connect ∨ (σ.session i).type = .splice →
    ∃ f early σ₀ p between σ₁ later,
      Announced log i f (σ.session i).token early σ₀ p between σ₁ later

section steps
variable {cfg : Config} {σ σ' : Server} {log : Log Server Event} {i : Sid} {a : Action}
  {es : List Event}

theorem sentToQuiet {f} (move : Moves cfg σ a σ' es) (other : ∀ n, a ≠ .send i n) :
    sentTo i f (es.map (σ,·)) = [] := by
  refine List.flatMap_eq_nil_iff.mpr (fun entry mem => ?_)
  obtain ⟨e,inside,rfl⟩ := List.mem_map.mp mem
  cases movesLogs move inside with
  | plain is => cases e <;> first | rfl | cases is
  | @sent j w sent n conn is pc room valid pc' =>
    have apart : j ≠ i := by
      rintro rfl
      exact other n is
    simp [Event.sentTo,apart]
  | _ => rfl

theorem announceStarts {mt random s} (reg : Registry σ) (versions : Versions σ log)
    (pc : σ.pc i = .connectRecv) (found : σ.find .forward mt = some s)
    (logged : es = [.token i .connect mt,.lookup i .connect .forward mt (some s)] ++
      generatedEvents σ i s (given σ s mt random) ++ [Event.announced i s (given σ s mt random)]) :
    Announcing (log ++ es.map (σ,·)) i s (given σ s mt random) (log ++ [(σ,.token i .connect mt)]) σ mt
      ((generatedEvents σ i s (given σ s mt random) ++
        [Event.announced i s (given σ s mt random)]).map (σ,·)) := by
  obtain ⟨mem,type,token⟩ := findSound found
  refine ⟨by simp [logged],pc,by simp,⟨mem,type,token⟩,?_,⟨[],by simp⟩⟩
  rintro v ⟨σ₁,cmd,inside,login⟩
  have live := ((reg.member s).mp mem).1
  refine versions.forward s live type v ⟨σ₁,cmd,?_,login⟩
  simpa using inside

theorem writingNext (reg : Registry σ) (versions : Versions σ log) (safe : WritersSafe σ)
    (inv : Announces σ log) (move : Moves cfg σ a σ' es) {w t}
    (writes : (σ'.pc i).write = some w) (after : w.after = .connect t) :
    ∃ early σ₀ p later, Announcing (log ++ es.map (σ,·)) i w.target t early σ₀ p later ∧
      sentTo i w.target later = w.bytes.take (σ'.pc i).sent := by
  -- as long as the task sends nothing, what it has sent stays
  have still : ∀ w₀, (σ.pc i).write = some w₀ → w₀.after = .connect t → (∀ n, a ≠ .send i n) →
      ∃ early σ₀ p later, Announcing (log ++ es.map (σ,·)) i w₀.target t early σ₀ p later ∧
        sentTo i w₀.target later = w₀.bytes.take (σ.pc i).sent := by
    intro w₀ old after quiet
    obtain ⟨early,σ₀,p,later,known,sent⟩ := inv.writing i w₀ t old after
    refine ⟨early,σ₀,p,_,announcingMono _ known,?_⟩
    rw [sentToAppend,sentToQuiet move quiet,List.append_nil,sent]
  have arrives := arrivesMoves reg move (j := i)
  generalize σ'.pc i = p at arrives writes
  cases arrives with
  | stays away =>
    refine still w writes after (fun n is => ?_)
    obtain ⟨toRemote,data,relay⟩ := away (by rw [is]; rfl)
    rw [is] at relay
    contradiction
  | enters is pc next logged =>
    cases next with
    | keepAlive cmdIs other =>
      cases Option.some.inj writes
      contradiction
    | _ => simp [Pc.write] at writes
  | login came allowed token logged =>
    cases Option.some.inj writes
    contradiction
  | connect is pc found logged =>
    cases Option.some.inj writes
    cases after
    refine ⟨_,σ,_,_,announceStarts reg versions pc found logged,?_⟩
    simp only [sentTo,generatedEvents]
    split <;> simp [Event.sentTo,Pc.sent]
  | @locks w₀ is pc free logged =>
    cases Option.some.inj writes
    have old := still w₀ (by rw [pc]; rfl) after (by simp [is])
    simpa [pc,Pc.sent] using old
  | @sends w₀ sent n conn is pc positive room valid logged =>
    cases Option.some.inj writes
    have old : (σ.pc i).write = some w := by rw [pc]; rfl
    -- the number still belongs to the session that was looked up
    have reaches := (safe i w old).2.2
    rw [valid] at reaches
    cases reaches
    obtain ⟨early,σ₀,p,later,known,done⟩ := inv.writing i w t old after
    refine ⟨early,σ₀,p,_,announcingMono _ known,?_⟩
    rw [sentToAppend,done,pc,logged]
    simp [sentTo,Event.sentTo,Pc.sent,List.take_add]
  | _ => simp [Pc.write] at writes

theorem announcesNext (reg : Registry σ) (writing : ∀ i, WritingAt σ i) (versions : Versions σ log)
    (safe : WritersSafe σ) (whole : WholeSends σ a) (inv : Announces σ log)
    (move : Moves cfg σ a σ' es) : Announces σ' (log ++ es.map (σ,·)) := by
  refine ⟨fun _ _ _ => writingNext reg versions safe inv move,?_⟩
  intro i type
  have carried : (σ.session i).type = .connect ∨ (σ.session i).type = .splice →
      ∃ f early σ₀ p between σ₁ later,
        Announced (log ++ es.map (σ,·)) i f (σ.session i).token early σ₀ p between σ₁ later := by
    intro old
    obtain ⟨f,early,σ₀,p,between,σ₁,later,known⟩ := inv.connector i old
    exact ⟨f,early,σ₀,p,between,σ₁,_,announcedMono _ known⟩
  obtain ⟨s,lock,change,session⟩ := changesMoves reg move i
  rw [session] at type ⊢
  cases change with
  | same => exact carried type
  | closed ending => exact carried type
  | handed pass ending => exact carried type
  | token came => simp [(loginTokenPlace reg came).2.1] at type
  | @connect w sent res mt is pc done after logged =>
    have old : (σ.pc i).write = some w := by rw [pc]; rfl
    obtain ⟨early,σ₀,p,later,known,sends⟩ := inv.writing i w mt old after
    obtain ⟨rest,shape⟩ := logged
    subst is
    have bytes : w.bytes = message 1 .connect mt.bytes := by
      have shape := ((writing i).shape w old).2
      simp only [WriteShape,after] at shape
      exact shape.2
    have all : sentTo i w.target later = message 1 .connect mt.bytes := by
      rw [sends,pc,Pc.sent,sentWhole whole pc done,List.take_length,bytes]
    refine ⟨w.target,early,σ₀,p,later ++ [(σ,.returned i w.target w.bytes sent res),
      (σ,.inserted σ.tree i)],σ,rest.map (σ,·),?_,?_⟩
    · simpa [shape,connectSession] using announcingMono (es.map (σ,·)) known
    · rw [sentToAppend,all]
      simp [sentTo,Event.sentTo,connectSession]
  | spliced pass found logged => exact carried (.inl (findSound found).2.1)
  | opened fresh nobody => simp [newSession] at type
  | forward is pc done after => simp [forwardSession] at type
  | evicted came allowed found logged => simp at type

def Event.pair : Event → Option (Sid × Sid)
  | .matched i s _ _ => some (i,s)
  | _ => none

def pairs (log : Log Server Event) : List (Sid × Sid) := log.filterMap (fun e => e.2.pair)

theorem pairsNext : pairs (log ++ es.map (σ,·)) = pairs log ++ es.filterMap Event.pair := by
  simp [pairs,List.filterMap_append,List.filterMap_map]

theorem plainPairs {l : List Event} (plain : ∀ e ∈ l, e.plain = true) : l.filterMap Event.pair = [] := by
  refine List.filterMap_eq_nil_iff.mpr (fun e mem => ?_)
  have is := plain e mem
  cases e <;> first | rfl | cases is

theorem loginTokenPairs {ver t es₀} (came : LoginToken σ i a ver t es₀) :
    es₀.filterMap Event.pair = [] := by
  cases came <;> rfl

theorem acceptPassPairs {mt timeout es₀} (pass : AcceptPass σ i a mt timeout es₀) :
    es₀.filterMap Event.pair = [] := by
  cases pass <;> rfl

theorem allowedPairs {t} : (allowedEvents σ i t).filterMap Event.pair = [] := by
  unfold allowedEvents
  split <;> rfl

theorem pairsMoves (move : Moves cfg σ a σ' es) (reg : Registry σ) :
    es.filterMap Event.pair = [] ∨
      ∃ i s, es.filterMap Event.pair = [(i,s)] ∧ (σ.pc i).runs = true ∧ (σ'.pc i).runs = false ∧
        (σ.session s).type = .connect ∧ (σ'.session s).type = .splice := by
  have close : ∀ {σ i}, (closeEvents σ i).filterMap Event.pair = [] :=
    plainPairs (fun _ mem => closePlain mem)
  cases move with
  | hangsUp ending => exact .inl close
  | refuses pc bad => exact .inl (by simp only [List.filterMap_cons,Event.pair,close])
  | loginRejected came has unlisted =>
    exact .inl (by simp [List.filterMap_append,loginTokenPairs came,Event.pair])
  | loginFresh came allowed missing =>
    exact .inl (by simp [List.filterMap_append,loginTokenPairs came,allowedPairs,Event.pair])
  | loginEvicts came allowed found =>
    exact .inl (by simp [List.filterMap_append,loginTokenPairs came,allowedPairs,Event.pair])
  | connectFound pc found =>
    left
    simp only [generatedEvents]
    split <;> simp [Event.pair]
  | acceptOver pass => exact .inl (by simp [List.filterMap_append,acceptPassPairs pass,close])
  | acceptWaits pass left missing =>
    exact .inl (by simp [List.filterMap_append,acceptPassPairs pass,Event.pair])
  | @acceptMatches i a mt timeout es s pass left found =>
    obtain ⟨runs,serves⟩ := acceptPassPlace reg pass
    obtain ⟨other,_,type,_⟩ := acceptFinds serves found
    refine .inr ⟨i,s,?_,runs,by simp [Pc.runs],type,?_⟩
    · simp only [List.filterMap_append,List.filterMap_cons,List.filterMap_nil,acceptPassPairs pass,
        close,Event.pair,List.nil_append,List.append_nil]
    · simp [handOverSession σ cfg other,other]
  | writeFails pc fail => exact .inl (by simp only [List.filterMap_cons,Event.pair,close])
  | _ => exact .inl rfl

theorem countMoves (move : Moves cfg σ a σ' es) : σ.count ≤ σ'.count := by
  cases move with
  | opened valid free => exact Nat.le_succ _
  | refused valid free => exact Nat.le_succ _
  | hangsUp ending => simp
  | refuses pc bad => simp
  | acceptOver pass => simp
  | acceptMatches pass left found => simp
  | writeFails pc fail => simp
  | _ => exact Nat.le_refl _

theorem deadKept (reg : Registry σ) (move : Moves cfg σ a σ' es) (old : i ≠ σ.count)
    (dead : (σ.session i).live = false) : (σ'.session i).live = false := by
  obtain ⟨s,lock,change,session⟩ := changesMoves reg move i
  rw [session]
  cases change with
  | opened fresh nobody => exact absurd fresh old
  | closed ending => rfl
  | handed pass ending => rfl
  | _ => exact dead

structure PairedOnce (σ : Server) (log : Log Server Event) : Prop where
  ending : ∀ pair ∈ pairs log, pair.1 < σ.count ∧ (σ.session pair.1).live = false ∧
    (σ.session pair.2).type = .splice
  givers : ((pairs log).map Prod.fst).Nodup
  takers : ((pairs log).map Prod.snd).Nodup

theorem pairedOnceNext (reg : Registry σ) (inv : PairedOnce σ log) (move : Moves cfg σ a σ' es) :
    PairedOnce σ' (log ++ es.map (σ,·)) := by
  have kept : ∀ pair ∈ pairs log, pair.1 < σ'.count ∧ (σ'.session pair.1).live = false ∧
      (σ'.session pair.2).type = .splice := by
    intro pair mem
    obtain ⟨low,dead,type⟩ := inv.ending pair mem
    exact ⟨Nat.lt_of_lt_of_le low (countMoves move),deadKept reg move (Nat.ne_of_lt low) dead,
      (spliceKept reg move type).1⟩
  rcases pairsMoves move reg with none' | ⟨i,s,one,runs,ending,connect,splice⟩
  · refine ⟨?_,?_,?_⟩ <;> rw [pairsNext,none',List.append_nil]
    · exact kept
    · exact inv.givers
    · exact inv.takers
  · have live := registryLive reg runs
    have dead : (σ'.session i).live = false := ((registryMoves reg move).running i).trans ending
    have fresh : i ∉ (pairs log).map Prod.fst := by
      intro mem
      obtain ⟨pair,inside,rfl⟩ := List.mem_map.mp mem
      rw [(inv.ending pair inside).2.1] at live
      contradiction
    have fresh' : s ∉ (pairs log).map Prod.snd := by
      intro mem
      obtain ⟨pair,inside,rfl⟩ := List.mem_map.mp mem
      rw [(inv.ending pair inside).2.2] at connect
      contradiction
    refine ⟨?_,?_,?_⟩ <;> rw [pairsNext,one]
    · intro pair mem
      rcases List.mem_append.mp mem with old | new
      · exact kept pair old
      · cases List.mem_singleton.mp new
        exact ⟨Nat.lt_of_lt_of_le (registryBelow reg runs) (countMoves move),dead,splice⟩
    · rw [List.map_append]
      exact List.nodup_append'.mpr ⟨inv.givers,by simp,by simpa using fresh⟩
    · rw [List.map_append]
      exact List.nodup_append'.mpr ⟨inv.takers,by simp,by simpa using fresh'⟩

end steps

def Event.mentions (t : Token) : Event → Bool
  | .token _ _ t' => t' = t
  | .generated _ t' => t' = t
  | _ => false

def Unseen (log : Log Server Event) (t : Token) : Prop := ∀ e ∈ log, e.2.mentions t = false

def Unused (log : Log Server Event) (t : Token) : Prop :=
  ∀ e ∈ log, ∀ i, e.2 ≠ .generated i t ∧ e.2 ≠ .token i .login t

/- Connector `i` is never announced, nor paired, under the token. -/
def Unpaired (log : Log Server Event) (i : Sid) (t : Token) : Prop :=
  (∀ σ₁ s, (σ₁,Event.announced i s t) ∉ log) ∧ ∀ σ₁ j fd, (σ₁,Event.matched j i t fd) ∉ log

def Undivided (σ : Server) (a : Action) : Prop := WholeSends σ a ∧ Undisturbed σ a

instance (σ : Server) (a : Action) : Decidable (Undivided σ a) := by
  unfold Undivided; infer_instance

section runs
variable {cfg : Config} {ok : Server → Action → Prop} {σ : Server} {log : Log Server Event}

theorem announcesRun (run : Run (machine cfg) Undivided σ log) : Announces σ log := by
  refine runInvariant (P := fun σ log => Announces σ log) ?_ ?_ run
  · refine ⟨?_,?_⟩ <;> simp [machine,init,unborn,Pc.write]
  · intro s log a s' es run allowed taken inv
    exact announcesNext (registryRun run) (writingRun run) (versionsRun run)
      (writersSafe (fun _ _ h => h.2) run) allowed.1 inv (stepMoves taken)

theorem pairedOnceRun (run : Run (machine cfg) ok σ log) : PairedOnce σ log := by
  refine runInvariant (P := fun σ log => PairedOnce σ log) ?_ ?_ run
  · refine ⟨?_,?_,?_⟩ <;> simp [pairs]
  · intro s log a s' es run _ taken inv
    exact pairedOnceNext (registryRun run) inv (stepMoves taken)

theorem unusedOnly {before after : Log Server Event} {σ₀ : Server} {i : Sid} {t : Token}
    (split : log = before ++ (σ₀,.generated i t) :: after) (unseen : Unseen before t)
    (unused : Unused after t) :
    (∀ σ₁ j, (σ₁,Event.generated j t) ∈ log → σ₁ = σ₀ ∧ j = i) ∧
      ∀ σ₁ j, (σ₁,Event.token j .login t) ∉ log := by
  refine ⟨?_,?_⟩
  · intro σ₁ j mem
    rw [split] at mem
    rcases List.mem_append.mp mem with early | late
    · have no := unseen _ early
      simp [Event.mentions] at no
    · rcases List.mem_cons.mp late with same | late
      · cases same; exact ⟨rfl,rfl⟩
      · exact absurd rfl (unused _ late j).1
  · intro σ₁ j mem
    rw [split] at mem
    rcases List.mem_append.mp mem with early | late
    · have no := unseen _ early
      simp [Event.mentions] at no
    · rcases List.mem_cons.mp late with same | late
      · cases same
      · exact absurd rfl (unused _ late j).2

theorem announcedOnly (run : Run (machine cfg) ok σ log) {before after : Log Server Event}
    {σ₀ : Server} {i : Sid} {t : Token} (split : log = before ++ (σ₀,.generated i t) :: after)
    (reads : σ₀.pc i = .connectRecv) (unseen : Unseen before t) (unused : Unused after t)
    {σ₁ : Server} {j s : Sid} (mem : (σ₁,Event.announced j s t) ∈ log) : j = i := by
  obtain ⟨once,never⟩ := unusedOnly split unseen unused
  obtain ⟨pre,a,σ₂,es,earlier,_,taken,inside,initial⟩ := runStep run mem
  generalize token : t = given' at inside
  cases movesLogs (stepMoves taken) inside with
  | plain is => contradiction
  | @announced j mt random s is pc found logged =>
    by_cases temp : (σ₁.session s).isTempToken = true
    · -- the token was generated for this connector
      have made : Event.generated j t ∈ es := logged (by simp [generatedEvents,temp,token])
      exact (once σ₁ j (initial.subset (memNext.mpr (.inr ⟨rfl,made⟩)))).2
    · -- the token is that of the forwarder, which would have come by it before
      obtain ⟨_,forward,same⟩ := findSound found
      have known := (cameRun earlier).forward s forward
      have shape : given σ₁ s mt random = mt := by simp [given,temp]
      rw [same,← shape,← token] at known
      have older : pre ⊆ log := fun e mem => initial.subset (List.mem_append_left _ mem)
      rcases known with ⟨σ₃,login⟩ | ⟨σ₃,made,elsewhere⟩
      · exact absurd (older login) (never σ₃ s)
      · obtain ⟨rfl,rfl⟩ := once σ₃ s (older made)
        exact absurd reads elsewhere

theorem pairedOnly (run : Run (machine cfg) Undivided σ log) {before after : Log Server Event}
    {σ₀ : Server} {i : Sid} {t : Token} (split : log = before ++ (σ₀,.generated i t) :: after)
    (reads : σ₀.pc i = .connectRecv) (unseen : Unseen before t) (unused : Unused after t) {j : Sid}
    (other : j ≠ i) : Unpaired log j t := by
  have announced : ∀ σ₁ s, (σ₁,Event.announced j s t) ∉ log := fun σ₁ s mem =>
    other (announcedOnly run split reads unseen unused mem)
  refine ⟨announced,fun σ₁ k fd mem => ?_⟩
  obtain ⟨pre,a,σ₂,es,earlier,_,taken,inside,initial⟩ := runStep run mem
  cases movesLogs (stepMoves taken) inside with
  | plain is => contradiction
  | matched pass left found next logged =>
    obtain ⟨_,type,token⟩ := findSound found
    obtain ⟨f,early,σ₃,p,between,σ₄,later,known⟩ := (announcesRun earlier).connector j (.inl type)
    rw [token] at known
    exact announced σ₃ f (initial.subset (List.mem_append_left _ (announcingLogged known.found)))

structure Agreement (log : Log Server Event) : Prop where
  paired : ∀ before σ₁ j i t fd after, log = before ++ (σ₁,Event.matched j i t fd) :: after →
    (i ∈ σ₁.tree.inorder ∧ (σ₁.session i).type = .connect ∧ (σ₁.session i).token = t) ∧
    (∃ σ₂, (σ₂,Event.token j .accept t) ∈ log) ∧
    ∃ f early σ₀ p between σ₂ later, Announced before i f t early σ₀ p between σ₂ later ∧
      (LoggedIn early f 3 → ∃ rest,
        log = early ++ (σ₀,.lookup i .connect .forward p (some f)) :: (σ₀,.generated i t) :: rest ∧
        (Unseen early t → Unused rest t → ∀ k, k ≠ i → Unpaired log k t))
  givers : ((pairs log).map Prod.fst).Nodup
  takers : ((pairs log).map Prod.snd).Nodup

theorem pairingAgrees (cfg : Config) (σ : Server) (log : Log Server Event)
    (run : Run (machine cfg) Undivided σ log) : Agreement log := by
  refine ⟨?_,(pairedOnceRun run).givers,(pairedOnceRun run).takers⟩
  intro before σ₁ j i t fd after split
  obtain ⟨pre,a,σ₂,es₁,es₂,earlier,allowed,taken,left,right⟩ := runAt run split
  have initial := stepInitial split left right
  cases movesLogs (stepMoves taken) (e := .matched j i t fd) (by simp) with
  | plain is => contradiction
  | matched pass waits found next logged =>
    obtain ⟨mem,type,token⟩ := findSound found
    obtain ⟨σ₃,presented⟩ := acceptPresented (lookupsRun earlier) pass logged
    obtain ⟨f,early,σ₀,p,between,σ₄,later,known⟩ := (announcesRun earlier).connector i (.inl type)
    have known := announcedMono (es₁.map (σ₁,·)) known
    rw [token,← left] at known
    refine ⟨⟨mem,type,token⟩,⟨σ₃,initial.subset presented⟩,f,early,σ₀,p,between,σ₄,_,known,?_⟩
    intro version
    have temp := known.found.version 3 version
    obtain ⟨rest,given⟩ := known.found.given
    simp only [generatedEvents,temp,decide_true,if_true,List.map_cons,List.map_nil,
      List.cons_append,List.nil_append] at given
    have whole : log = early ++ (σ₀,.lookup i .connect .forward p (some f)) ::
        (σ₀,.generated i t) :: ((σ₀,.announced i f t) :: rest ++
          (σ₁,.matched j i t (σ₁.session j).clientFd) :: after) := by
      rw [split,known.found.split,given]
      simp
    refine ⟨_,whole,fun unseen unused k other => ?_⟩
    rw [List.append_cons] at whole
    refine pairedOnly run whole known.found.reads ?_ unused other
    intro e mem
    rcases List.mem_append.mp mem with old | new
    · exact unseen e old
    · cases List.mem_singleton.mp new; rfl

theorem pairingAgreesTemp : ∃ σ log, Run (machine (plainConfig 120 none)) Undivided σ log ∧
    ∃ f early σ₀ p between σ₂ later,
      Announced log 1 f (tokenGenerate .zero) early σ₀ p between σ₂ later := by
  obtain ⟨σ,log,run,shows⟩ := replayReaches (machine (plainConfig 120 none)) Undivided
    (loginActions 0 5 3 (tokenOf 7) ++ connectActions 1 6 (tokenOf 7) .zero ++
      ([.lock 1,.send 1 5,.send 1 13,.sendReturn 1 18,.accept 7,.recvMessage 2 (some (1,4)) .zero,
        .recvToken 2 (some (tokenGenerate .zero)) .zero] : List Action))
    (fun r => (r.2.map Prod.snd).contains (.matched 2 1 (tokenGenerate .zero) 7)) (by decide)
  obtain ⟨⟨σ₁,e⟩,mem,rfl⟩ := List.mem_map.mp (List.contains_iff_mem.mp shows)
  obtain ⟨before,after,split⟩ := List.append_of_mem mem
  have agrees := pairingAgrees (plainConfig 120 none) σ log run
  obtain ⟨_,_,f,early,σ₀,p,between,σ₂,later,known,_⟩ := agrees.paired before σ₁ 2 1 _ 7 after split
  have known := announcedMono ((σ₁,.matched 2 1 (tokenGenerate .zero) 7) :: after) known
  rw [← split] at known
  exact ⟨σ,log,run,f,early,σ₀,p,between,σ₂,_,known⟩

/- The forwarder hangs up before the message is sent; the number is taken by a
client that gets the message in its place, and the connector is paired all the same. -/
def misdirectedConnect : List Action :=
  reusedNumber ++ [.sendReturn 1 18,.accept 7,.recvMessage 3 (some (1,4)) .zero,
    .recvToken 3 (some (tokenOf 7)) .zero]

theorem pairingMisled :
    ¬ ∀ cfg σ log, Run (machine cfg) WholeSends σ log → Agreement log := by
  intro agrees
  obtain ⟨σ,log,run,shows⟩ := replayReaches (machine (plainConfig 120 none)) WholeSends
    misdirectedConnect
    (fun r => (r.2.map Prod.snd).contains (.matched 3 1 (tokenOf 7) 7) ∧
      (∀ e ∈ r.2, e.2.finds = none ∨ e.2.finds = some 0 ∨ e.2.finds = some 1) ∧
      sentTo 1 0 r.2 = [] ∧ sentTo 1 1 r.2 = []) (by decide)
  dsimp only at shows
  obtain ⟨paired,found,none',none''⟩ := of_decide_eq_true shows
  obtain ⟨⟨σ₁,e⟩,mem,rfl⟩ := List.mem_map.mp (List.contains_iff_mem.mp paired)
  obtain ⟨before,after,split⟩ := List.append_of_mem mem
  obtain ⟨_,_,f,early,σ₀,p,between,σ₂,later,known,_⟩ :=
    (agrees _ σ log run).paired before σ₁ 3 1 _ 7 after split
  have written := known.written
  have quiet : ∀ g, sentTo 1 g log = [] → sentTo 1 g between = [] := by
    intro g silent
    refine List.flatMap_eq_nil_iff.mpr (fun e inside => ?_)
    refine List.flatMap_eq_nil_iff.mp silent e ?_
    rw [split,known.found.split]
    simp [inside]
  have hit := found (σ₀,.lookup 1 .connect .forward p (some f)) (by rw [split,known.found.split]; simp)
  simp only [Event.finds,Option.some.injEq,reduceCtorEq,false_or] at hit
  rcases hit with rfl | rfl
  · rw [quiet 0 none'] at written
    contradiction
  · rw [quiet 1 none''] at written
    contradiction

end runs

end HevFsh.SessionTask
