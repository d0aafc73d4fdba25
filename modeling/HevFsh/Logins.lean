import HevFsh.Writers

/-! What the log tells about a forwarder: the version it logged in with and
where its token came from. -/
namespace HevFsh.SessionTask
open SearchTree Protocol SessionManager Transitions

def LoggedIn (log : Log Server Event) (i : Sid) (ver : UInt8) : Prop :=
  ∃ σ₁ cmd, (σ₁,Event.header i ver cmd) ∈ log ∧ Command.ofByte cmd = some .login

def Pc.serves : Pc → Bool
  | .absent | .recvMessage => true
  | .writeLock w | .writeSend w _ => w.after = .keepAlive
  | _ => false

structure Versions (σ : Server) (log : Log Server Event) : Prop where
  idle : ∀ i, (σ.session i).type = .null → (σ.pc i).serves = true → ∀ ver, ¬ LoggedIn log i ver
  reading : ∀ i ver, σ.pc i = .loginRecv ver → ∀ v, LoggedIn log i v → v = ver
  writing : ∀ i w ver, (σ.pc i).write = some w → w.after = .login ver → ∀ v, LoggedIn log i v → v = ver
  forward : ∀ i, (σ.session i).live = true → (σ.session i).type = .forward →
    ∀ v, LoggedIn log i v → (σ.session i).isTempToken = decide (v = 3)

section steps
variable {cfg : Config} {σ σ' : Server} {log : Log Server Event} {i : Sid} {a : Action}
  {es : List Event}

theorem loggedInNext {v} (move : Moves cfg σ a σ' es) (known : LoggedIn (log ++ es.map (σ,·)) i v) :
    LoggedIn log i v ∨ ∃ cmd random, a = .recvMessage i (some (v,cmd)) random ∧
      Command.ofByte cmd = some .login ∧ σ.pc i = .recvMessage := by
  obtain ⟨σ₁,cmd,mem,login⟩ := known
  rcases memNext.mp mem with old | ⟨rfl,new⟩
  · exact .inl ⟨σ₁,cmd,old,login⟩
  · cases movesLogs move new with
    | plain is => contradiction
    | @header i ver cmd random is pc => exact .inr ⟨cmd,random,is,login,pc⟩

theorem loginLeaves {v cmd random} (reg : Registry σ) (move : Moves cfg σ a σ' es)
    (is : a = .recvMessage i (some (v,cmd)) random) (login : Command.ofByte cmd = some .login) :
    (σ'.pc i).serves = false ∧ ((σ'.pc i).runs = true → (σ'.session i).type = .null) := by
  have fits := (registryMoves reg move).fits i
  have arrives := arrivesMoves reg move (j := i)
  generalize σ'.pc i = p at arrives fits
  subst is
  cases arrives with
  | stays away =>
    obtain ⟨toRemote,data,same⟩ := away rfl
    contradiction
  | opened fresh nobody => contradiction
  | ended mine => exact ⟨rfl,fun runs => by contradiction⟩
  | rejected mine => exact ⟨rfl,fun _ => by simpa [Fits] using fits⟩
  | enters is pc next logged =>
    cases is
    cases next with
    | login is' type other => exact ⟨rfl,fun _ => by simpa [Fits] using fits⟩
    | connect is' type => simp [login] at is'
    | accept is' => simp [login] at is'
    | quiet is' => simp [login] at is'
    | keepAlive is' other => simp [login] at is'
  | login came allowed token logged => exact ⟨rfl,fun _ => by simpa [Fits] using fits⟩
  | accept pass logged => cases pass
  | _ => contradiction

theorem servesBefore (reg : Registry σ) (move : Moves cfg σ a σ' es)
    (serves : (σ'.pc i).serves = true) (type : (σ'.session i).type = .null) :
    (σ.pc i).serves = true := by
  have arrives := arrivesMoves reg move (j := i)
  generalize σ'.pc i = p at arrives serves
  cases arrives with
  | stays away => exact serves
  | opened fresh nobody => rw [reg.ahead i (Nat.le_of_eq fresh.symm)]; rfl
  | enters is pc next logged => rw [pc]; rfl
  | locks is pc free logged => rw [pc]; exact serves
  | sends is pc positive room valid logged => rw [pc]; exact serves
  | registered is pc after forward =>
    rw [type] at forward
    contradiction
  | kept is pc after => rw [pc]; simp [Pc.serves,after]
  | _ => contradiction

theorem nullBefore (reg : Registry σ) (move : Moves cfg σ a σ' es)
    (type : (σ'.session i).type = .null) : (σ.session i).type = .null := by
  rcases typeMoves reg move i with same | moved
  · rw [← same]; exact type
  · rw [type] at moved
    generalize (σ.session i).type = old at moved
    cases moved

theorem versionsNext (reg : Registry σ) (inv : Versions σ log) (move : Moves cfg σ a σ' es) :
    Versions σ' (log ++ es.map (σ,·)) := by
  have reg' := registryMoves reg move
  refine ⟨?_,?_,?_,?_⟩
  · intro i type serves v known
    rcases loggedInNext move known with old | ⟨cmd,random,is,login,pc⟩
    · exact inv.idle i (nullBefore reg move type) (servesBefore reg move serves type) v old
    · rw [(loginLeaves reg move is login).1] at serves
      contradiction
  · intro i ver pc' v known
    have arrives := arrivesMoves reg move (j := i)
    rw [pc'] at arrives
    generalize place : Pc.loginRecv ver = p at arrives
    cases arrives with
    | stays away =>
      rcases loggedInNext move known with old | ⟨cmd,random,is,login,pc⟩
      · exact inv.reading i ver place.symm v old
      · rw [← place] at pc
        contradiction
    | enters is pc next logged =>
      cases next with
      | login is' type other =>
        cases place
        rcases loggedInNext move known with old | ⟨cmd,random,is'',login,_⟩
        · exact absurd old (inv.idle i type (by rw [pc]; rfl) v)
        · rw [is] at is''
          cases is''
          rfl
      | _ => contradiction
    | _ => contradiction
  · intro i w ver writes after v known
    cases writesMoves reg move writes with
    | carried fd old =>
      rcases loggedInNext move known with earlier | ⟨cmd,random,is,login,pc⟩
      · exact inv.writing i _ ver old after v earlier
      · simp [pc,Pc.write] at old
    | login came allowed token logged =>
      cases after
      rcases loggedInNext move known with earlier | ⟨cmd,random,is,login,pc⟩
      · cases came with
        | first pc is type => exact absurd earlier (inv.idle i type (by rw [pc]; rfl) v)
        | zero pc => exact inv.reading i ver pc v earlier
        | client pc nonzero => exact inv.reading i ver pc v earlier
      · cases came with
        | first pc is' type => cases is; rfl
        | zero pc' => contradiction
        | client pc' nonzero => contradiction
    | _ => contradiction
  · intro i live type v known
    have early : LoggedIn log i v := by
      rcases loggedInNext move known with old | ⟨cmd,random,is,login,pc⟩
      · exact old
      · rw [reg'.running i] at live
        rw [(loginLeaves reg move is login).2 live] at type
        contradiction
    obtain ⟨s,lock,change,session⟩ := changesMoves reg move i
    rw [session] at live type ⊢
    cases change with
    | same => exact inv.forward i live type v early
    | token came =>
      rw [(loginTokenPlace reg came).2.1] at type
      contradiction
    | forward is pc done after =>
      cases inv.writing i _ _ (by rw [pc]; rfl) after v early
      rfl
    | _ => contradiction

theorem loginTokenKept {w ver} (reg : Registry σ) (move : Moves cfg σ a σ' es)
    (writes : (σ.pc i).write = some w) (after : w.after = .login ver) :
    (σ'.session i).token = (σ.session i).token := by
  obtain ⟨s,lock,change,session⟩ := changesMoves reg move i
  rw [session]
  cases change with
  | opened fresh nobody => simp [reg.ahead i (Nat.le_of_eq fresh.symm),Pc.write] at writes
  | token came => simp [loginTokenIdle came] at writes
  | connect is pc done after' logged =>
    simp only [pc,Pc.write,Option.some.injEq] at writes
    subst writes
    rw [after] at after'
    contradiction
  | _ => rfl

structure ForwardKnown (K : Log Server Event → Sid → Token → Prop) (σ : Server)
    (log : Log Server Event) : Prop where
  login : ∀ i w ver, (σ.pc i).write = some w → w.after = .login ver → K log i (σ.session i).token
  forward : ∀ i, (σ.session i).type = .forward → K log i (σ.session i).token

theorem forwardKnownNext {K : Log Server Event → Sid → Token → Prop}
    (mono : ∀ {log} more {i t}, K log i t → K (log ++ more) i t) (reg : Registry σ)
    (inv : ForwardKnown K σ log) (move : Moves cfg σ a σ' es)
    (starts : ∀ {i ver t es₀ rest}, LoginToken σ i a ver t es₀ → Allowed σ t →
      es = es₀ ++ allowedEvents σ i t ++ rest → K (log ++ es.map (σ,·)) i t) :
    ForwardKnown K σ' (log ++ es.map (σ,·)) := by
  refine ⟨?_,?_⟩
  · intro i w ver writes after
    cases writesMoves reg move writes with
    | @carried w fd old =>
      rw [loginTokenKept reg move old after]
      exact mono _ (inv.login i w ver old after)
    | login came allowed token logged =>
      rw [token]
      exact starts came allowed logged
    | _ => contradiction
  · intro i type
    refine mono _ ?_
    obtain ⟨s,lock,change,session⟩ := changesMoves reg move i
    rw [session] at type ⊢
    cases change with
    | same => exact inv.forward i type
    | closed ending => exact inv.forward i type
    | handed pass ending => exact inv.forward i type
    | token came =>
      rw [(loginTokenPlace reg came).2.1] at type
      contradiction
    | forward is pc done after => exact inv.login i _ _ (by rw [pc]; rfl) after
    | _ => contradiction

def Came (log : Log Server Event) (i : Sid) (t : Token) : Prop :=
  (∃ σ₁, (σ₁,Event.token i .login t) ∈ log) ∨
    ∃ σ₁, (σ₁,Event.generated i t) ∈ log ∧ σ₁.pc i ≠ .connectRecv

theorem cameStarts {ver t es₀} {rest : List Event} (came : LoginToken σ i a ver t es₀)
    (logged : es = es₀ ++ rest) : Came (log ++ es.map (σ,·)) i t := by
  have inside : ∀ e ∈ es₀, (σ,e) ∈ log ++ es.map (σ,·) := fun e mem =>
    memNext.mpr (.inr ⟨rfl,by simp [logged,mem]⟩)
  cases came with
  | first pc is type => exact .inr ⟨σ,inside _ (by simp),by simp [pc]⟩
  | zero pc => exact .inr ⟨σ,inside _ (by simp),by simp [pc]⟩
  | client pc nonzero => exact .inl ⟨σ,inside _ (by simp)⟩

theorem cameMono {more : Log Server Event} {t} (known : Came log i t) : Came (log ++ more) i t := by
  rcases known with ⟨σ₁,mem⟩ | ⟨σ₁,mem,other⟩
  · exact .inl ⟨σ₁,List.mem_append_left _ mem⟩
  · exact .inr ⟨σ₁,List.mem_append_left _ mem,other⟩

end steps

section runs
variable {cfg : Config} {ok : Server → Action → Prop} {σ : Server} {log : Log Server Event}

theorem versionsRun (run : Run (machine cfg) ok σ log) : Versions σ log := by
  refine runInvariant (P := fun σ log => Versions σ log) ?_ ?_ run
  · refine ⟨?_,?_,?_,?_⟩ <;> simp [machine,init,unborn,Pc.write,LoggedIn]
  · intro s log a s' es run _ taken inv
    exact versionsNext (registryRun run) inv (stepMoves taken)

theorem cameRun (run : Run (machine cfg) ok σ log) : ForwardKnown Came σ log := by
  refine runInvariant (P := fun σ log => ForwardKnown Came σ log) ?_ ?_ run
  · refine ⟨?_,?_⟩ <;> simp [machine,init,unborn,Pc.write]
  · intro s log a s' es run _ taken inv
    exact forwardKnownNext (fun _ => cameMono) (registryRun run) inv (stepMoves taken)
      (fun came _ logged => cameStarts came (logged.trans (List.append_assoc _ _ _)))

end runs

end HevFsh.SessionTask
