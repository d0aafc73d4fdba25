import HevFsh.Announcements
import HevFsh.ClientDescriptors
import HevFsh.ParseArgs

/-! What main makes of a command line that parse_args has taken: the server, or the client
that hev_fsh_client_factory_get gives and those which this one starts later. -/
namespace HevFsh.Launch
open Inet HostOrder CText Config CommandLine ParseArgs Transitions ClientTask

def modeNumber : Mode → Nat
  | .none => 0
  | .server => 1 <<< 4
  | .forwarderTerm => 1 <<< 3
  | .forwarderPort => 1 <<< 3 ||| 1 <<< 0
  | .forwarderSock => 1 <<< 3 ||| 1 <<< 1
  | .connectorTerm => 1 <<< 2
  | .connectorPort => 1 <<< 2 ||| 1 <<< 0
  | .connectorSock => 1 <<< 2 ||| 1 <<< 1

inductive Started where
  | server
  | forward
  | client (kind : Kind)
  deriving DecidableEq, Repr

/- hev_fsh_client_factory_get; HEV_FSH_CONFIG_MODE_FORWARDER is that of the terminals. -/
def factoryGet (config : Config) : Option Started :=
  if modeNumber .forwarderTerm &&& modeNumber config.mode ≠ 0 then some .forward
  else if config.mode = .connectorPort then
    some (.client (if config.localPort ≠ 0 then .portListen else .portConnect))
  else if config.mode = .connectorSock then some (.client .sockListen)
  else if config.mode = .connectorTerm then some (.client .termConnect)
  else none

def instanceOf (config : Config) : Option Started :=
  if config.mode = .server then some .server else factoryGet config

def Spawns (config : Config) (_ : Process) : ClientTask.Action → Prop
  | .spawn kind _ => match instanceOf config with
      | some .forward => kind = Announcements.forwardAccept config.mode
      | some (.client k) => kind = k
      | _ => False
  | _ => True

def Decided (list : List AddrListNode) : Prop :=
  ∃ front action, list = front ++ [⟨0,1 - action,.zero,0⟩] ∧ (action = 0 ∨ action = 1) ∧
    ∀ n ∈ front, n.type ≠ 0 ∧ n.action = action

structure Reads (config : Config) (kind : Kind) : Prop where
  server : kind.listener = false → config.serverAddress.isSome = true ∧ config.serverPort.isSome = true
  token : kind = .portConnect ∨ kind = .sockConnect ∨ kind = .termConnect → config.token.isSome = true
  remote : kind = .portConnect → config.remoteAddress.isSome = true
  listen : kind.listener = true → config.localAddress.isSome = true
  list : kind = .portAccept → Decided config.addrList

section lists
variable {N : InetPton} {order : ByteOrder} {config : Config} {action : Int}

def Adds (config config' : Config) (action : Int) : Prop :=
  ∃ nodes, config' = { config with addrList := nodes ++ config.addrList } ∧
    ∀ n ∈ nodes, n.type ≠ 0 ∧ n.action = action

theorem addsNone : Adds config config action := ⟨[],rfl,by simp⟩

theorem addsMore {config' config'' : Config} (first : Adds config config' action)
    (later : Adds config' config'' action) :
    Adds config config'' action := by
  obtain ⟨nodes,rfl,typed⟩ := first
  obtain ⟨more,rfl,typed'⟩ := later
  refine ⟨more ++ nodes,by simp,fun n mem => ?_⟩
  rcases List.mem_append.mp mem with new | old
  · exact typed' n new
  · exact typed n old

theorem addsNode (type : Int) (typed : type ≠ 0) (addr : Protocol.Bytes) (port : UInt32) :
    Adds config (addrListAdd config type addr port action) action := by
  refine ⟨[_],rfl,fun n mem => ?_⟩
  rw [List.mem_singleton.mp mem]
  exact ⟨typed,rfl⟩

theorem setAddrListAdds (str : Text) : Adds config (setAddrList N order config str action).2 action := by
  unfold setAddrList
  split
  · exact addsNone
  · split
    · exact addsMore (addsNode 4 (by decide) _ _) (addsNode 6 (by decide) _ _)
    · split
      · exact addsNone
      · simp only
        split
        · exact addsMore (addsNode 6 (by decide) _ _) (addsNode 4 (by decide) _ _)
        · exact addsNode 6 (by decide) _ _
  · exact addsNone

theorem listLoopAdds (str : Text) (s : Nat) :
    Adds config (parseSetAddrListLoop N order action s config str).2 action := by
  induction str generalizing s config with
  | nil => exact addsNone
  | cons c rest ih =>
    unfold parseSetAddrListLoop
    split
    · exact ih 0
    · split
      · have here := @setAddrListAdds N order config action (c::rest)
        simp only
        split
        · exact here
        · exact addsMore here (ih 1)
      · exact ih s

theorem addsDecided {config' : Config} (fresh : config.addrList = []) (sides : action = 0 ∨ action = 1)
    (adds : Adds (addrListAdd config 0 [] 0 (1 - action)) config' action) : Decided config'.addrList := by
  obtain ⟨nodes,rfl,typed⟩ := adds
  exact ⟨nodes,action,by simp [addrListAdd,fresh],sides,typed⟩

end lists

def connects : Mode → Bool
  | .connectorTerm | .connectorPort | .connectorSock => true
  | _ => false

structure Ready (config : Config) : Prop where
  started : (instanceOf config).isSome = true
  address : config.serverAddress.isSome = true
  port : config.serverPort.isSome = true
  listen : config.localAddress.isSome = true
  token : connects config.mode = true → config.token.isSome = true
  remote : config.mode = .connectorPort → config.remoteAddress.isSome = true
  list : config.mode = .forwarderPort → Decided config.addrList

section parsing
variable {N : InetPton} {order : ByteOrder} {config config' : Config}

theorem setModeReady {mode : Mode} (known : mode ≠ .none) (port : config.serverPort.isSome = true)
    (listen : config.localAddress.isSome = true)
    (token : connects mode = true → config.token.isSome = true)
    (remote : mode = .connectorPort → config.remoteAddress.isSome = true)
    (list : mode = .forwarderPort → Decided config.addrList) : Ready (setMode config mode) where
  started := by
    have is : (setMode config mode).mode = mode := rfl
    unfold instanceOf factoryGet
    rw [is]
    cases mode <;> first | rfl | contradiction
  address := by
    unfold setMode
    cases config.serverAddress with
    | some address => rfl
    | none => simp only; split <;> rfl
  port := port
  listen := listen
  token := token
  remote := remote
  list := list

theorem serverReady {sa : Option Text} (port : config.serverPort.isSome = true)
    (listen : config.localAddress.isSome = true)
    {res : Int} (taken : parseServer config sa = (res,config')) (ok : ¬ res < 0) : Ready config' := by
  unfold parseServer at taken
  split at taken
  · cases taken
    exact setModeReady (by simp) port listen (by simp [connects]) (by simp) (by simp)
  · split at taken
    · cases taken
      exact absurd (by decide) ok
    · rename_i parsed _
      cases taken
      refine setModeReady (by simp) ?_ listen (by simp [connects]) (by simp) (by simp)
      simp only
      cases parsed.port with
      | some at' => rfl
      | none => exact port

theorem pairSets {str : Text} {res : Int} (taken : parseSetAddrPair config str = (res,config')) (ok : ¬ res < 0) :
    config'.remoteAddress.isSome = true ∧ config'.serverPort = config.serverPort ∧ config'.token = config.token ∧
      (config.localAddress.isSome = true → config'.localAddress.isSome = true) := by
  unfold parseSetAddrPair at taken
  split at taken <;> cases taken
  case h_4 => exact absurd (by decide) ok
  all_goals simp

theorem addrSets {str : Text} {res : Int} (taken : parseSetAddr config str = (res,config')) :
    config'.serverPort = config.serverPort ∧ config'.token = config.token ∧
      (config.localAddress.isSome = true → config'.localAddress.isSome = true) := by
  unfold parseSetAddr at taken
  split at taken
  · cases taken; simp
  · split at taken <;> cases taken <;> simp

theorem forwarderDecides {w b : Option Text} (fresh : config.addrList = [])
    {res : Int} (taken : parsePortForwarder N order config w b = (res,config')) (ok : ¬ res < 0) :
    Decided config'.addrList ∧
      config'.serverPort = config.serverPort ∧ config'.localAddress = config.localAddress := by
  have of : ∀ {action : Int}, action = 0 ∨ action = 1 → Adds (addrListAdd config 0 []
      0 (1 - action)) config' action →
      Decided config'.addrList ∧ config'.serverPort = config.serverPort ∧
        config'.localAddress = config.localAddress := by
    intro action sides adds
    refine ⟨addsDecided fresh sides adds,?_⟩
    obtain ⟨nodes,rfl,_⟩ := adds
    exact ⟨rfl,rfl⟩
  unfold parsePortForwarder at taken
  split at taken
  · cases taken
    exact absurd (by decide) ok
  · rename_i w
    have adds := @listLoopAdds N order (addrListAdd config 0 [] 0 0) 1 w 0
    rw [parseSetAddrList] at taken
    rw [taken] at adds
    exact of (.inr rfl) adds
  · rename_i b
    have adds := @listLoopAdds N order (addrListAdd config 0 [] 0 1) 0 b 0
    rw [parseSetAddrList] at taken
    rw [taken] at adds
    exact of (.inl rfl) adds
  · cases taken
    exact of (.inl rfl) addsNone

theorem clientReady {f p x : Bool} {t₁ t₂ w b u : Option Text} (fresh : config.addrList = [])
    (port : config.serverPort.isSome = true) (listen : config.localAddress.isSome = true)
    {res : Int} (taken : parseClient N order config f p x t₁ t₂ w b u = (res,config')) (ok : ¬ res < 0) :
    Ready config' := by
  unfold parseClient at taken
  simp only at taken
  have fails : ∀ c : Config, (-1,c) = (res,config') → Ready config' := fun c is => by
    cases is
    exact absurd (by decide) ok
  split at taken
  · exact fails _ taken
  rename_i parsed _
  have port' : (setServer config parsed).serverPort.isSome = true := by
    unfold setServer
    simp only
    cases parsed.port with
    | some at' => rfl
    | none => exact port
  generalize server : setServer config parsed = c at taken port'
  have fresh' : c.addrList = [] := by rw [← server]; exact fresh
  have listen' : c.localAddress.isSome = true := by rw [← server]; exact listen
  split at taken
  · split at taken
    · generalize is : parsePortForwarder N order c w b = out at taken
      obtain ⟨_,c'⟩ := out
      simp only at taken
      split at taken
      · exact fails _ taken
      rename_i fits
      cases taken
      obtain ⟨decided,samePort,sameListen⟩ := forwarderDecides fresh' is fits
      exact setModeReady (by simp) (by rw [samePort]; exact port') (by rw [sameListen]; exact listen')
        (by simp [connects]) (by simp) (fun _ => decided)
    · split at taken <;> cases taken
      · exact setModeReady (by simp) port' listen' (by simp [connects]) (by simp) (by simp)
      · exact setModeReady (by simp) port' listen' (by simp [connects]) (by simp) (by simp)
  · split at taken
    · exact fails _ taken
    rename_i given
    have token : c.token.isSome = true := Option.isSome_iff_ne_none.mpr given
    split at taken
    · generalize is : parseSetAddrPair c _ = out at taken
      obtain ⟨_,c'⟩ := out
      simp only at taken
      split at taken
      · exact fails _ taken
      rename_i fits
      cases taken
      obtain ⟨remote,samePort,sameToken,keeps⟩ := pairSets is fits
      exact setModeReady (by simp) (by rw [samePort]; exact port') (keeps listen')
        (fun _ => by rw [sameToken]; exact token) (fun _ => remote) (by simp)
    · split at taken
      · generalize is : parseSetAddr c _ = out at taken
        obtain ⟨_,c'⟩ := out
        simp only at taken
        split at taken
        · exact fails _ taken
        cases taken
        obtain ⟨samePort,sameToken,keeps⟩ := addrSets is
        exact setModeReady (by simp) (by rw [samePort]; exact port') (keeps listen')
          (fun _ => by rw [sameToken]; exact token) (by simp) (by simp)
      · cases taken
        exact setModeReady (by simp) port' listen' (fun _ => token) (by simp) (by simp)

theorem caseKeeps {α : Type} {c : Prop} [Decidable c] {x y : α} {rest : Option α} {P : α → Prop}
    (taken : (if c then some x else rest) = some y) (here : P x) (later : rest = some y → P y) : P y := by
  split at taken
  · cases taken; exact here
  · exact later taken

theorem optionKeeps {st st' : FshConfig × Locals} {opt : UInt8} {optarg : Option Text}
    (taken : parseOption st opt optarg = some st') : st'.1.toConfig = st.1.toConfig := by
  unfold parseOption at taken
  repeat refine caseKeeps (P := fun s => s.1.toConfig = st.1.toConfig) taken rfl (fun taken => ?_)
  contradiction

theorem optionsKeep {rs : List (UInt8 × Option Text)} {st : FshConfig × Locals} :
    (parseOptions st rs).2.1.toConfig = st.1.toConfig := by
  induction rs generalizing st with
  | nil => rfl
  | cons r rs ih =>
    unfold parseOptions
    split
    · rfl
    · rename_i st' taken
      rw [ih,optionKeeps taken]

theorem keyKeeps {files : Text → Option Protocol.Bytes} {config config' : FshConfig}
    {key : Text} {ugly : Bool} {res : Int}
    (taken : parseKey files config key ugly = (res,config')) : config'.toConfig = config.toConfig := by
  unfold parseKey at taken
  split at taken
  · cases taken; rfl
  · split at taken <;> cases taken <;> rfl

end parsing

section args
variable {files : Text → Option Protocol.Bytes} {N : InetPton} {order : ByteOrder}
    {words : List Text} {config : FshConfig}

theorem finishReady {st : FshConfig × Locals} {t₁ t₂ : Option Text} (untouched : st.1.toConfig = configNew)
    (taken : finish files N order st t₁ t₂ = (0,config)) : Ready config.toConfig := by
  obtain ⟨c,l⟩ := st
  simp only at untouched
  unfold finish at taken
  simp only [untouched] at taken
  generalize is : (if l.s then parseServer configNew t₁
      else parseClient N order configNew l.f l.p l.x t₁ t₂ l.w l.b l.u) = out at taken
  obtain ⟨res,config'⟩ := out
  simp only at taken
  split at taken
  · cases taken
  rename_i ok
  have ready : Ready config' := by
    split at is
    · exact serverReady rfl rfl is ok
    · exact clientReady rfl rfl rfl is ok
  cases key : l.k with
  | none =>
    simp only [key] at taken
    cases taken
    exact ready
  | some k =>
    simp only [key] at taken
    generalize read : parseKey files _ k l.ugly = out at taken
    obtain ⟨res',config''⟩ := out
    simp only at taken
    split at taken <;> cases taken
    rw [keyKeeps read]
    exact ready

theorem argsReady (taken : parseArgs files N order fshConfigNew words = (0,config)) : Ready config.toConfig := by
  unfold parseArgs at taken
  generalize Getopt.gnuGetopt strings words = found at taken
  obtain ⟨rs,operands⟩ := found
  simp only at taken
  generalize is : parseOptions (fshConfigNew,locals) (rs.map resolved) = out at taken
  obtain ⟨res,st⟩ := out
  simp only at taken
  have untouched : st.1.toConfig = configNew := by
    have keeps := @optionsKeep (rs.map resolved) (fshConfigNew,locals)
    rw [is] at keeps
    exact keeps
  split at taken
  · cases taken
  · exact finishReady untouched taken

end args

section runs
variable {h : Host} {σ : Process} {log : Log Process ClientTask.Event}

theorem kindsGoes {a : ClientTask.Action} {out : Out} (goes : Goes h σ a out) {j : Nat} (inside : j < out.1.count) :
    (j < σ.count ∧ (out.1.client j).kind = (σ.client j).kind) ∨
      (∃ token, a = .spawn (out.1.client j).kind token) ∨
      ∃ i, (σ.client i).pc = .accepting ∧ (out.1.client j).kind = (σ.client i).kind.dispatch := by
  have same : ∀ {σ' : Process} {i : Nat} {c : ClientTask.Client}, σ'.client = Function.update σ.client i c →
      c.kind = (σ.client i).kind → (σ'.client j).kind = (σ.client j).kind := by
    intro σ' i c client kind
    rw [client]
    by_cases mine : j = i
    · subst mine
      rw [Function.update_self,kind]
    · rw [Function.update_of_ne mine]
  have unrefs : ∀ {i : Nat} {out : Out}, out.1.client = σ.client →
      ((unref i out).1.client j).kind = (σ.client j).kind := by
    intro i out client
    exact same (c := {σ.client i with pc := .ended}) (by rw [unrefClient,client]) rfl
  cases goes with
  | @spawns kind token top =>
    by_cases new : j = σ.count
    · subst new
      exact .inr (.inl ⟨token,by simp [Process.add,Process.become]⟩)
    · have old : j < σ.count := Nat.lt_of_le_of_ne (Nat.lt_succ_iff.mp inside) new
      exact .inl ⟨old,by simp [Process.add,Process.become,Function.update_of_ne new]⟩
  | @accepts a i fd pc valid free =>
    by_cases new : j = σ.count
    · subst new
      exact .inr (.inr ⟨i,pc,by simp [Process.add,Process.become,acquire]⟩)
    · have old : j < σ.count := Nat.lt_of_le_of_ne (Nat.lt_succ_iff.mp inside) new
      exact .inl ⟨old,by simp [Process.add,Process.become,acquire,Function.update_of_ne new]⟩
  | leaves runs alone hears => exact .inl ⟨by rwa [unrefCount] at inside,unrefs rfl⟩
  | fails pc valid free => exact .inl ⟨by rwa [unrefCount] at inside,unrefs rfl⟩
  | loses extra => exact .inl ⟨by rwa [unrefCount] at inside,unrefs rfl⟩
  | noShell pc kind valid free => exact .inl ⟨by rwa [unrefCount] at inside,unrefs rfl⟩
  | connecting pc client valid free | listening pc listens valid free | connected here next | reached pc
  | sends piece positive room valid | speaks spoken | gives ready kind | dials pc kind size allowed valid free
  | shell pc kind valid free => exact .inl ⟨inside,same rfl rfl⟩
  | relays pc valid | drops pc valid free | opens valid free | closes on => exact .inl ⟨inside,rfl⟩

def Belongs (config : Config) (kind : Kind) : Prop :=
  (instanceOf config = some .forward ∧ kind = Announcements.forwardAccept config.mode) ∨
    ∃ k, instanceOf config = some (.client k) ∧ (kind = k ∨ kind = k.dispatch)

theorem dispatchTwice (kind : Kind) : kind.dispatch.dispatch = kind.dispatch := by cases kind <;> rfl

theorem acceptDispatch (mode : Mode) :
    (Announcements.forwardAccept mode).dispatch = Announcements.forwardAccept mode := by cases mode <;> rfl

theorem belongsRun {config : Config} (run : Run (machine h) (Spawns config) σ log) :
    ∀ i, i < σ.count → Belongs config (σ.client i).kind := by
  refine runInvariant (P := fun σ _ => ∀ i, i < σ.count → Belongs config (σ.client i).kind) ?_ ?_ run
  · exact fun i inside => absurd inside (Nat.not_lt_zero i)
  · intro σ log a σ' es run allowed taken inv j inside
    rcases kindsGoes (stepGoes taken) inside with ⟨old,same⟩ | ⟨token,rfl⟩ | ⟨i,accepting,kind⟩
    · rw [same]
      exact inv j old
    · simp only [Spawns] at allowed
      split at allowed
      · exact .inl ⟨by assumption,allowed⟩
      · exact .inr ⟨_,by assumption,.inl allowed⟩
      · contradiction
    · have there := runsInside (shapedRun run) (i := i) (by rw [accepting]; rfl)
      rw [kind]
      rcases inv i there with ⟨forward,is⟩ | ⟨k,client,is | is⟩
      · exact .inl ⟨forward,by rw [is,acceptDispatch]⟩
      · exact .inr ⟨k,client,.inr (by rw [is])⟩
      · exact .inr ⟨k,client,.inr (by rw [is,dispatchTwice])⟩

theorem forwardMode {config : Config} (is : instanceOf config = some .forward) :
    config.mode = .forwarderTerm ∨ config.mode = .forwarderPort ∨ config.mode = .forwarderSock := by
  unfold instanceOf factoryGet at is
  cases mode : config.mode <;> simp [mode,modeNumber] at is ⊢

theorem clientMode {config : Config} {k : Kind} (is : instanceOf config = some (.client k)) :
    (config.mode = .connectorPort ∧ (k = .portListen ∨ k = .portConnect)) ∨
      (config.mode = .connectorSock ∧ k = .sockListen) ∨ (config.mode = .connectorTerm ∧ k = .termConnect) := by
  unfold instanceOf factoryGet at is
  cases mode : config.mode <;> simp [mode,modeNumber] at is ⊢
  case connectorPort =>
    subst is
    split <;> simp
  all_goals exact is.symm

theorem belongsReads {config : Config} (ready : Ready config) {kind : Kind} (belongs : Belongs config kind) :
    Reads config kind := by
  rcases belongs with ⟨forward,rfl⟩ | ⟨k,client,is⟩
  · rcases forwardMode forward with mode | mode | mode
    all_goals
      refine ⟨fun _ => ⟨ready.address,ready.port⟩,?_,?_,fun _ => ready.listen,?_⟩ <;>
        simp only [mode,Announcements.forwardAccept] <;> simp
    exact ready.list mode
  · have token : config.token.isSome = true := by
      refine ready.token ?_
      rcases clientMode client with ⟨mode,_⟩ | ⟨mode,_⟩ | ⟨mode,_⟩ <;> rw [mode] <;> rfl
    refine ⟨fun _ => ⟨ready.address,ready.port⟩,fun _ => token,fun port => ?_,
        fun _ => ready.listen,fun accept => ?_⟩
    · refine ready.remote ?_
      rcases clientMode client with ⟨mode,_⟩ | ⟨_,rfl⟩ | ⟨_,rfl⟩
      · exact mode
      · rcases is with is | is <;> rw [is] at port <;> contradiction
      · rcases is with is | is <;> rw [is] at port <;> contradiction
    · rcases clientMode client with ⟨_,rfl | rfl⟩ | ⟨_,rfl⟩ | ⟨_,rfl⟩ <;> rcases is with is | is <;>
        rw [is] at accept <;> contradiction

end runs

structure Launched (config : Config) : Prop where
  started : (instanceOf config).isSome = true
  server : config.serverAddress.isSome = true ∧ config.serverPort.isSome = true
  clients : ∀ (h : Host) (σ : Process) (log : Log Process ClientTask.Event), h.config = config →
    Run (machine h) (Spawns config) σ log → ∀ i, i < σ.count → Reads config (σ.client i).kind

/- Whatever command line is taken, nothing that it starts misses what it reads. -/
theorem launchComplete (files : Text → Option Protocol.Bytes) (N : InetPton) (order : ByteOrder) (words : List Text)
    (config : FshConfig) (taken : parseArgs files N order fshConfigNew words = (0,config)) :
    Launched config.toConfig := by
  have ready := argsReady taken
  exact ⟨ready.started,⟨ready.address,ready.port⟩,fun h σ log _ run i inside =>
    belongsReads ready (belongsRun run i inside)⟩

theorem launchCompleteListen : ∃ config, parseArgs (fun _ => none) inetPton .little fshConfigNew
    [[45,112],[56,48,48,48,58,104,58,56,48],[115,47,116]] = (0,config) ∧
    instanceOf config.toConfig = some (.client .portListen) ∧ Launched config.toConfig := by
  have shows : (parseArgs (fun _ => none) inetPton .little fshConfigNew
      [[45,112],[56,48,48,48,58,104,58,56,48],[115,47,116]]).1 = 0 ∧
      instanceOf (parseArgs (fun _ => none) inetPton .little fshConfigNew
        [[45,112],[56,48,48,48,58,104,58,56,48],[115,47,116]]).2.toConfig = some (.client .portListen) := by
    decide +kernel
  have taken := Prod.ext shows.1 rfl
  exact ⟨_,taken,shows.2,launchComplete _ _ _ _ _ taken⟩

end HevFsh.Launch
