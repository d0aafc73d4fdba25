import HevFsh.ScriptRules

/-! The terminal acceptor on Windows: hev_pty_proc_start with its exits, the waiter that
closes the pseudo console behind the shell, hev_bridge_new with the two workers of
hev-bridge.c, and hev_fsh_client_term_accept_task_entry around them, as scripts of the
handles, descriptors and blocks that each call gives and takes. -/
namespace HevFsh.ConsoleAccept
open Transitions Scripts

/- `inR` to `outW` are the ends of the two pipes, `thread` and `process` the handles of
the shell, `proc` the duplicate of the latter, `call` the stack that it is started on,
`front` and `worker` the two ends of the socket pair; the last three are thread handles. -/
inductive Object where
  | self | pp | call
  | inR | inW | outR | outW
  | pty | attributeList | attributes
  | process | thread | proc
  | front | worker | bridge
  | waiter | reader | writer
  deriving DecidableEq, Repr

inductive Call where
  | new | sendAccept | recvInfo | callocProc | taskCallNew
  | createPipeIn | createPipeOut | createPseudoConsole
  | malloc | initializeList | updateAttribute | createProcess
  | duplicateHandle | createWaiter
  | socketpair | callocBridge | ioctlsocket | createReader | createWriter
  | shellExits | readFails | writeFails
  deriving DecidableEq, Repr

inductive Flag where
  | terminated | exited | consoleClosed | frontClosed
  deriving DecidableEq, Repr

abbrev Code := Script Object Call Flag

def shell : Code :=
  let exit : Code := .signal .exited .done
  .call .shellExits [] exit (.await .terminated exit)

def hevPtyProcWaiter : Code :=
  .use .pp <| .use .process <| .await .exited <|
  .use .pp <| .free .pty <| .signal .consoleClosed <|
  .use .pp <| .free .process <| .free .pp .done

/- Its exits are the labels of the source; `yes` and `no` go on in the caller. -/
def hevPtyProcStart (yes no : Code) : Code :=
  let failPty : Code := .free .pty <| .free .inW <| .free .outR no
  let failAttr : Code := .free .attributeList failPty
  let failAttrList : Code := .free .attributes failAttr
  .call .createPipeIn [.inR,.inW]
    (.call .createPipeOut [.outR,.outW]
      (.call .createPseudoConsole [.pty]
        (.free .inR <| .free .outW <|
        .call .malloc [.attributeList]
          (.call .initializeList [.attributes]
            (.call .updateAttribute []
              (.call .createProcess [.process,.thread]
                (.promise .terminated <| .promise .exited <| .fork [.promise .exited] shell <|
                .free .attributes <| .free .attributeList <| .free .thread yes)
                (.free .attributes <| .free .attributeList failPty))
              failAttrList)
            failAttr)
          -- not to fail_pty
          (.free .inW <| .free .outR no))
        (.free .inR <| .free .inW <| .free .outR <| .free .outW no))
      (.free .inR <| .free .inW no))
    no

def hevBridgeUnref (next : Code) : Code :=
  .drop .bridge (.free .worker <| .free .outR <| .free .inW <| .free .bridge next) next

/- With HEV_BRIDGE_DRAIN it reads on until the read fails, if only for the closed console. -/
def hevBridgeReader : Code :=
  let exit : Code := .use .worker <| hevBridgeUnref .done
  .use .bridge <| .use .outR <| .use .worker <| .call .readFails [] exit (.await .consoleClosed exit)

def hevBridgeWriter : Code :=
  let exit : Code := .use .worker <| hevBridgeUnref .done
  .use .bridge <| .use .worker <| .use .inW <| .call .writeFails [] exit (.await .frontClosed exit)

def hevBridgeSpawn (create : Call) (handle : Object) (entry yes no : Code) : Code :=
  .share .bridge <| .call create [handle]
    (.fork [.share .bridge] entry <| .free handle yes)
    (.drop .bridge no no)

def closeFront (next : Code) : Code := .free .front <| .signal .frontClosed next

def hevBridgeNew (yes no : Code) : Code :=
  let fail : Code := closeFront <| .free .worker no
  let failFree : Code := .unpack .bridge <| .free .bridge fail
  .call .socketpair [.front,.worker]
    (.promise .frontClosed <| .call .callocBridge [.bridge]
      (.pack .bridge <| .call .ioctlsocket []
        (hevBridgeSpawn .createReader .reader hevBridgeReader
          (hevBridgeSpawn .createWriter .writer hevBridgeWriter
            (hevBridgeUnref yes)
            (.use .worker <| hevBridgeUnref <| closeFront no))
          failFree)
        failFree)
      fail)
    no

def termAccept : Code :=
  let quit : Code := .free .self .done
  -- what follows the bridge; `proc` is NULL when it could not be duplicated
  let kill (duplicated : Bool) : Code :=
    if duplicated then .use .proc <| .signal .terminated <| .free .proc quit else quit
  let serve (duplicated : Bool) : Code :=
    .free .waiter <| hevBridgeNew
      (.use .front <| closeFront <| kill duplicated)
      (.free .outR <| .free .inW <| kill duplicated)
  let unwaited (duplicated : Bool) : Code :=
    .use .pp <| .use .process <| .signal .terminated <| .await .exited <|
    .use .pp <| .free .pty <| .use .pp <| .free .process <| .free .pp <| .free .outR <| .free .inW <|
    if duplicated then .free .proc quit else quit
  let wait (duplicated : Bool) : Code :=
    .use .pp <| .call .createWaiter [.waiter]
      (.promise .consoleClosed <|
        .fork [.object .pp,.object .pty,.object .process,.promise .consoleClosed] hevPtyProcWaiter <|
        serve duplicated)
      (unwaited duplicated)
  .call .new [.self]
    (.call .sendAccept []
      (.call .recvInfo []
        (.call .callocProc [.pp]
          (.call .taskCallNew [.call]
            (.use .call <| .use .pp <| hevPtyProcStart
              (.free .call <| .use .pp <| .call .duplicateHandle [.proc] (wait true) (wait false))
              (.free .call <| .free .pp quit))
            (.free .pp quit))
          quit)
        quit)
      quit)
    .done

/- `in` and `out` are the bridge's with the worker end; the creation of the writer does
not fail here, since the caller then closes again what the bridge has closed. -/
def rules : Rules Object Call Flag where
  payload r := if r = .bridge then [.worker,.outR,.inW,.bridge] else []
  level
    | .terminated => 0
    | .exited => 1
    | .consoleClosed | .frontClosed => 2
  may c ok := c ≠ .createWriter || ok
  left fails :=
    if .malloc ∈ fails then [.object .pty]
    else if .duplicateHandle ∈ fails ∧ .createWaiter ∉ fails then [.promise .terminated]
    else []

theorem termAcceptPasses : Passes rules termAccept where
  checked := by decide +kernel
  single r := by cases r <;> decide +kernel

def killRules : Rules Object Call Flag where
  payload := rules.payload
  level := rules.level
  may c ok := rules.may c ok && (c ≠ .duplicateHandle || ok)
  left fails := if .malloc ∈ fails then [.object .pty] else []

theorem termAcceptKills : Passes killRules termAccept where
  checked := by decide +kernel
  single := termAcceptPasses.single

section runs
variable {σ : State Object Call Flag} {log : Log (State Object Call Flag) (Event Object Call Flag)}

def Lost (r : Object) (es : List (Event Object Call Flag)) : Prop := r = .pty ∧ ∃ i, .called i .malloc false ∈ es

structure Returned (σ : State Object Call Flag) (log : Log (State Object Call Flag) (Event Object Call Flag)) :
    Prop where
  once : ∀ r, (events log).count (.freed r) ≤ (events log).count (.made r) ∧ (events log).count (.made r) ≤ 1
  careful : ∀ before s e after r, log = before ++ (s,e) :: after → e = .used r ∨ e = .freed r →
    Alive r (events before)
  rest : AtRest σ → ∀ r, Alive r (events log) ↔ Lost r (events log)

theorem leavesObject {fails : List Call} {r : Object} :
    .object r ∈ rules.left fails ↔ r = .pty ∧ .malloc ∈ fails := by
  simp only [rules]
  split
  · simp_all
  · split <;> simp_all

theorem consoleReturned (σ : State Object Call Flag) (log : Log (State Object Call Flag) (Event Object Call Flag))
    (run : Run (machine termAccept) (Allowed rules) σ log) : Returned σ log where
  once r := ⟨runFreed termAcceptPasses run r,runOnce termAcceptPasses run r⟩
  careful before s e after r split touches := runCareful termAcceptPasses run split touches
  rest done r := by
    have plain : ∀ fails a, .share a ∉ rules.left fails := by
      intro fails a
      simp only [rules]
      split
      · simp
      · split <;> simp
    refine (restReturned termAcceptPasses plain run done r).trans ⟨?_,?_⟩
    · rintro ⟨i,_,left⟩
      obtain ⟨is,failed⟩ := leavesObject.mp left
      exact ⟨is,i,failedCalled.mp failed⟩
    · rintro ⟨is,i,called⟩
      have failed := failedCalled.mpr called
      exact ⟨i,failedInside termAcceptPasses run failed,leavesObject.mpr ⟨is,failed⟩⟩

def served : List (Nat × Bool) := List.replicate 47 (0,true)

theorem consoleReturnedServed : ∃ σ log, Run (machine termAccept) (Allowed rules) σ log ∧ σ.count = 5 ∧
    Returned σ log := by
  obtain ⟨σ,log,run,shows⟩ := replayReaches (machine termAccept) (Allowed rules) served
    (fun out => out.1.count = 5) (by decide +kernel)
  exact ⟨σ,log,run,of_decide_eq_true shows,consoleReturned σ log run⟩

theorem flagsSettle (σ : State Object Call Flag) (log : Log (State Object Call Flag) (Event Object Call Flag))
    (run : Run (machine termAccept) (Allowed killRules) σ log) :
    (∀ n σ', Path (machine termAccept) (Allowed killRules) σ n σ' → n ≤ remaining σ) ∧
      ∃ n σ' more, Path (machine termAccept) (Allowed killRules) σ n σ' ∧
        Run (machine termAccept) (Allowed killRules) σ' (log ++ more) ∧ AtRest σ' ∧
        ∀ r, Alive r (events (log ++ more)) → Lost r (events (log ++ more)) := by
  have possible : ∀ c, killRules.may c true = true ∨ killRules.may c false = true :=
    fun c => .inl (by cases c <;> rfl)
  have leaves : ∀ {fails t}, t ∈ killRules.left fails → t = .object .pty ∧ .malloc ∈ fails := by
    intro fails t left
    simp only [killRules] at left
    split at left <;> simp_all
  obtain ⟨bound,n,σ',more,path,run',rest⟩ := runSettles termAcceptKills possible
    (fun fails f left => by cases (leaves left).1) run
  refine ⟨fun n σ' path => bound path,n,σ',more,path,run',rest,fun r alive => ?_⟩
  obtain ⟨i,_,left⟩ := (restReturned termAcceptKills (fun fails a left => by cases (leaves left).1)
      run' rest r).mp alive
  obtain ⟨is,failed⟩ := leaves left
  exact ⟨Token.object.inj is,i,failedCalled.mp failed⟩

theorem flagsSettleServed : ∃ σ log, Run (machine termAccept) (Allowed killRules) σ log ∧ σ.count = 5 ∧
    ∃ n σ' more, Path (machine termAccept) (Allowed killRules) σ n σ' ∧
      Run (machine termAccept) (Allowed killRules) σ' (log ++ more) ∧ AtRest σ' ∧
      ∀ r, Alive r (events (log ++ more)) → Lost r (events (log ++ more)) := by
  obtain ⟨σ,log,run,shows⟩ := replayReaches (machine termAccept) (Allowed killRules)
    (served ++ [(1,false),(2,true),(2,true),(3,true),(3,true),(3,true),(3,false),(4,true),(4,true),(4,true),(4,false)])
    (fun out => out.1.count = 5) (by decide +kernel)
  exact ⟨σ,log,run,of_decide_eq_true shows,(flagsSettle σ log run).2⟩

end runs

end HevFsh.ConsoleAccept
