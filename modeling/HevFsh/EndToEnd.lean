import HevFsh.ClientRouting
import HevFsh.Streams

/-! A connector on one host, an acceptor on another and the server between them. Of each
connection it is assumed that it delivers a beginning of what was written to it. -/
namespace HevFsh.EndToEnd
open Protocol Inet CText SessionManager PortPolicy PortTarget Transitions SessionTask Streams ClientTask

structure Link (ν : Net) (served' : Log Server SessionTask.Event) (c : Sid)
    (log : Log Process ClientTask.Event) (a k : Nat) : Prop where
  connected : (a,k) ∈ connections log
  up : ν.arrived c <+: onto k log
  down : (view a log).heard <+: written c served'

section links
variable {near far : Host} {P Q : Process} {logP : Log Process ClientTask.Event}
  {logQ : Log Process ClientTask.Event} {cfg : SessionTask.Config} {ν : Net} {log : Log Net SessionTask.Event}
  {i s : Sid} {a b ka kb : Nat}

theorem linkSaid (run : Run (ClientTask.machine near) ClientTask.Calm P logP)
    (link : Link ν (served log) s logP a ka) : ν.arrived s <+: (view a logP).said := by
  have up := link.up
  rwa [ontoSaid (fun _ _ calm => calm.1) run link.connected] at up

theorem saidSpoke (run : Run (ClientTask.machine near) ClientTask.Calm P logP)
    (size : 2 ≤ (view a logP).said.length) :
    Spoke near (P.client a).kind (P.client a).token (view a logP) := by
  rcases spokeRun (fun _ _ calm => calm.2) run a with none' | spoke
  · rw [none'] at size
    simp [View.empty] at size
  · exact spoke

theorem saidPlanned {h : Host} {k : Kind} {own : Token} {v : View} (spoke : Spoke h k own v) :
    ∃ planned, Planned h k own planned ∧ v.said <+: planned ++ v.up := by
  rcases spoke.said with ⟨_,planned,is,front⟩ | ⟨whole,is,all⟩
  · exact ⟨planned,is,front.trans (List.prefix_append _ _)⟩
  · exact ⟨whole,.whole is,all ▸ List.prefix_rfl⟩

theorem plannedOpens {h : Host} {k : Kind} {own : Token} {planned : Bytes} (is : Planned h k own planned) :
    (k.connects = true → ∃ rest, planned = 1 :: Command.connect.code :: rest) ∧
    (k.accepts = true → ∃ rest, planned = 1 :: Command.accept.code :: rest) := by
  have both : ¬ (k.connects = true ∧ k.accepts = true) := by
    cases k <;> decide
  have opens : ∀ {req more}, Request h k own req →
      (k.connects = true → ∃ rest, req ++ more = 1 :: Command.connect.code :: rest) ∧
      (k.accepts = true → ∃ rest, req ++ more = 1 :: Command.accept.code :: rest) := by
    intro req more request
    cases request with
    | connect kind token => exact ⟨fun _ => ⟨_,rfl⟩,fun other => absurd ⟨kind,other⟩ both⟩
    | accept kind => exact ⟨fun other => absurd ⟨other,kind⟩ both,fun _ => ⟨_,rfl⟩⟩
  cases is with
  | whole is =>
    cases is with
    | full request sent info => rw [List.append_assoc]; exact opens request
    | plain request sent kind => exact opens request
  | noToken kind none' => exact ⟨fun _ => ⟨[],rfl⟩,fun other => absurd ⟨kind,other⟩ both⟩

theorem frontOf {l rest : Bytes} {x y : UInt8} (front : l <+: x :: y :: rest) (size : 2 ≤ l.length) :
    ∃ tail, l = x :: y :: tail := by
  match l with
  | [] => simp at size
  | [_] => simp at size
  | u::v::tail =>
    rw [List.cons_prefix_cons,List.cons_prefix_cons] at front
    exact ⟨tail,by rw [front.1,front.2.1]⟩

theorem arrivedOpens (run : Run (ClientTask.machine near) ClientTask.Calm P logP)
    (link : Link ν (served log) s logP a ka) (size : 2 ≤ (ν.arrived s).length) :
    ((P.client a).kind.connects = true → ∃ rest, ν.arrived s = 1 :: Command.connect.code :: rest) ∧
    ((P.client a).kind.accepts = true → ∃ rest, ν.arrived s = 1 :: Command.accept.code :: rest) := by
  have front := linkSaid run link
  have spoke := saidSpoke run (Nat.le_trans size front.length_le)
  obtain ⟨planned,is,said⟩ := saidPlanned spoke
  obtain ⟨connects,accepts⟩ := plannedOpens is
  refine ⟨fun kind => ?_,fun kind => ?_⟩
  · obtain ⟨rest,rfl⟩ := connects kind
    exact frontOf (front.trans said) size
  · obtain ⟨rest,rfl⟩ := accepts kind
    exact frontOf (front.trans said) size

/- What the server has written to each of two paired clients, told by what the other one
said behind its request. -/
structure Across (ν : Net) (L : Log Server SessionTask.Event) (i s : Sid) (connector acceptor : View) : Prop where
  forth : ∃ (t : Token) (behind : Bytes), connector.said = message 1 .connect (t.bytes ++ behind) ∧
    written i L <+: behind
  back : ∃ (t : Token) (behind : Bytes), acceptor.said = message 1 .accept (t.bytes ++ behind) ∧
    written s L <+: behind

theorem acrossRun (run : Run (Streams.machine cfg) Streams.Calm ν log) (paired : (i,s) ∈ pairs (served log))
    (runP : Run (ClientTask.machine near) ClientTask.Calm P logP) (linkP : Link ν (served log) s logP a ka)
    (connects : (P.client a).kind.connects = true)
    (runQ : Run (ClientTask.machine far) ClientTask.Calm Q logQ) (linkQ : Link ν (served log) i logQ b kb)
    (accepts : (Q.client b).kind.accepts = true) : Across ν (served log) i s (view a logP) (view b logQ) := by
  obtain ⟨rest,arrivedS⟩ := (arrivedOpens runP linkP (pairedOpened run paired (.inr rfl))).1 connects
  obtain ⟨rest',arrivedI⟩ := (arrivedOpens runQ linkQ (pairedOpened run paired (.inl rfl))).2 accepts
  obtain ⟨t,whole⟩ := connectorAcross run paired arrivedS arrivedI
  obtain ⟨t',whole'⟩ := acceptorAcross run paired arrivedS arrivedI
  have behind : ∀ {w : Bytes} {u : Token} {cmd : Command} {x y said : Bytes},
      1 :: cmd.code :: (u.bytes ++ (w ++ x ++ y)) <+: said →
      ∃ (t : Token) (rest : Bytes), said = message 1 cmd (t.bytes ++ rest) ∧ w <+: rest := by
    rintro w u cmd x y said ⟨more,rfl⟩
    exact ⟨u,w ++ x ++ y ++ more,by simp [message],by simp⟩
  have up := linkSaid runP linkP
  have up' := linkSaid runQ linkQ
  rw [arrivedS,whole] at up
  rw [arrivedI,whole'] at up'
  exact ⟨behind up,behind up'⟩

theorem sameFront {x y l : Bytes} (front : x <+: l) (front' : y <+: l) (size : x.length = y.length) : x = y := by
  obtain ⟨r,rfl⟩ := front
  obtain ⟨r',is⟩ := front'
  exact (List.append_inj is size.symm).1.symm

theorem requestDrops {h : Host} {k : Kind} {own t : Token} {cmd : Command} {req more behind : Bytes}
    (request : Request h k own req) (front : message 1 cmd (t.bytes ++ behind) <+: req ++ more) : behind <+: more := by
  have token : ∃ (cmd' : Command) (u : Token), req = message 1 cmd' u.bytes := by
    cases request with
    | connect kind token => exact ⟨_,_,rfl⟩
    | accept kind => exact ⟨_,_,rfl⟩
  obtain ⟨cmd',u,rfl⟩ := token
  replace front : 1 :: cmd.code :: (t.bytes ++ behind) <+: 1 :: cmd'.code :: (u.bytes ++ more) := front
  rw [List.cons_prefix_cons,List.cons_prefix_cons] at front
  have same : t.bytes = u.bytes := sameFront ((List.prefix_append _ _).trans front.2.2) (List.prefix_append _ _)
    (t.size.trans u.size.symm)
  rw [same] at front
  exact (List.prefix_append_right_inj _).mp front.2.2

theorem spokeBehind {h : Host} {k : Kind} {own t : Token} {v : View} {cmd : Command} {behind : Bytes}
    (spoke : Spoke h k own v) (said : v.said = message 1 cmd (t.bytes ++ behind)) :
    ∃ iv tx info, Sealed h iv tx ∧ (Info h k info ∨ info = [] ∧ (k = .sockConnect ∨ k.accepts = true)) ∧
      behind <+: iv ++ info ++ v.up := by
  have ofWhole : ∀ {whole}, Whole h k own whole → v.said <+: whole ++ v.up → ∃ iv tx info, Sealed h iv tx ∧
      (Info h k info ∨ info = [] ∧ (k = .sockConnect ∨ k.accepts = true)) ∧ behind <+: iv ++ info ++ v.up := by
    intro whole is front
    cases is with
    | full request sent info =>
      exact ⟨_,_,_,sent,.inl info,requestDrops request (by simpa only [said,List.append_assoc] using front)⟩
    | plain request sent kind =>
      exact ⟨_,_,[],sent,.inr ⟨rfl,kind⟩,requestDrops request
        (by simpa only [said,List.append_assoc,List.append_nil] using front)⟩
  rcases spoke.said with ⟨_,planned,is,front⟩ | ⟨whole,is,all⟩
  · cases is with
    | whole is => exact ofWhole is (front.trans (List.prefix_append _ _))
    | noToken kind none' =>
      have size := front.length_le
      rw [said] at size
      simp [message,t.size] at size
  · exact ofWhole is (all ▸ List.prefix_rfl)

theorem sealedPlain {h : Host} {iv : Bytes} {tx : List CryptoInfo} (open' : h.key = none) (is : Sealed h iv tx) :
    iv = [] := by
  cases is with
  | plain none' => rfl
  | keyed agreed size =>
    rw [open'] at agreed
    contradiction

theorem infoSize {h : Host} {addr : Text} {port : UInt32} :
    ((portInfo h.inetPton h.order addr port).store h.order).length = 19 := by
  simp [WireFormat.PortInfo.store,WireFormat.bytes16,(portInfo h.inetPton h.order addr port).addr.size]

/- Without keys: an acceptor dials what the connector's configuration says, and each side's
relay is given a beginning of what the other side's relay has taken. -/
structure Reaches (near far : Host) (t : Target) (connector acceptor : View) : Prop where
  target : portAccept far.order far.config.addrList (portConnect near.inetPton near.order near.config) = some t
  forth : acceptor.down <+: connector.up
  back : connector.down <+: acceptor.up

theorem reaches {k k' : Kind} {own own' : Token} {v w : View} {L : Log Server SessionTask.Event} {t : Target}
    (across : Across ν L i s v w) (heard : v.heard <+: written s L) (heard' : w.heard <+: written i L)
    (spoke : Spoke near k own v) (spoke' : Spoke far k' own' w) (port : k = .portConnect)
    (open' : near.key = none) (open'' : far.key = none) (dialled : t ∈ w.targets) : Reaches near far t v w := by
  obtain ⟨⟨u,behind,said,put⟩,⟨u',behind',said',put'⟩⟩ := across
  obtain ⟨kind,iv,rx,info,bare,size,allowed,heardAll⟩ := spoke'.targets t dialled
  cases sealedPlain open'' bare
  -- what the acceptor has heard is a beginning of the connector's message and relay
  have whole : info ++ w.down <+: portConnect near.inetPton near.order near.config ++ v.up := by
    obtain ⟨iv',tx,info',sent,is,front⟩ := spokeBehind spoke said
    cases sealedPlain open' sent
    have own' : info' = portConnect near.inetPton near.order near.config := by
      rcases is with is | ⟨_,sock | accepts⟩
      · cases is with
        | port kind => rfl
        | term kind => rw [port] at kind; contradiction
      · rw [port] at sock; contradiction
      · rw [port] at accepts; contradiction
    rw [heardAll] at heard'
    have front := (heard'.trans put).trans front
    simpa [own'] using front
  have same : info = portConnect near.inetPton near.order near.config :=
    sameFront ((List.prefix_append _ _).trans whole) (List.prefix_append _ _) (size.trans infoSize.symm)
  refine ⟨same ▸ allowed,?_,?_⟩
  · rw [same] at whole
    exact (List.prefix_append_right_inj _).mp whole
  · rcases spoke.down (by rw [port]; rfl) with none' | ⟨iv',rx',bare',all⟩
    · rw [none']
      exact List.nil_prefix
    · cases sealedPlain open' bare'
      obtain ⟨iv'',tx,info',sent,is,front⟩ := spokeBehind spoke' said'
      cases sealedPlain open'' sent
      have nothing : info' = [] := by
        rcases is with is | ⟨nothing,_⟩
        · cases is with
          | port kind' => rw [kind] at kind'; contradiction
          | term kind' => rw [kind] at kind'; contradiction
        · exact nothing
      rw [all] at heard
      have front := (heard.trans put').trans front
      simpa [nothing] using front

theorem sealedBehind {h : Host} {k : Kind} {own t : Token} {v : View} {cmd : Command} {behind : Bytes} {ci : CryptoInfo}
    (spoke : Spoke h k own v) (said : v.said = message 1 cmd (t.bytes ++ behind)) (set : ci ∈ v.tx) :
    ∃ iv key, h.key = some key ∧ iv.length = 8 ∧ ci = cryptoInfo key iv ∧ iv <+: behind := by
  obtain ⟨req,iv,key,request,agreed,size,is,more,all⟩ := spoke.tx ci set
  rw [said,List.append_assoc] at all
  have front : message 1 cmd (t.bytes ++ behind) <+: req ++ (iv ++ more) := all ▸ List.prefix_rfl
  have longer := requestDrops request front
  have token : req.length = 18 := by
    cases request with
    | connect kind token => simp [message,Token.size]
    | accept kind => simp [message,Token.size]
  have sizes := congrArg List.length all
  simp only [List.length_append,token,message,List.length_cons,t.size] at sizes
  have exact' : behind = iv ++ more := longer.eq_of_length (by simp only [List.length_append]; omega)
  exact ⟨iv,key,agreed,size,is,exact' ▸ List.prefix_append _ _⟩

theorem directionAgrees {h h' : Host} {k k' : Kind} {own own' t : Token} {v w : View} {cmd : Command}
    {behind put : Bytes} {ci ci' : CryptoInfo} (spoke : Spoke h k own v) (spoke' : Spoke h' k' own' w)
    (agreed : h.key = h'.key)
    (said : v.said = message 1 cmd (t.bytes ++ behind)) (across : put <+: behind) (heard : w.heard <+: put)
    (set : ci ∈ v.tx) (set' : ci' ∈ w.rx) : ci = ci' := by
  obtain ⟨iv,key,mine,size,rfl,front⟩ := sealedBehind spoke said set
  obtain ⟨iv',key',theirs,size',rfl,front'⟩ := spoke'.rx ci' set'
  rw [mine,theirs] at agreed
  cases agreed
  rw [sameFront front ((front'.trans heard).trans across) (size.trans size'.symm)]

end links

section ends
variable {cfg : SessionTask.Config} {ν : Net} {log : Log Net SessionTask.Event} {i s : Sid}

theorem keysAgree (cfg : SessionTask.Config) (ν : Net) (log : Log Net SessionTask.Event)
    (run : Run (Streams.machine cfg) Streams.Calm ν log) (i s : Sid) (paired : (i,s) ∈ pairs (served log))
    (near far : Host) (P Q : Process) (logP logQ : Log Process ClientTask.Event)
    (runP : Run (ClientTask.machine near) ClientTask.Calm P logP)
    (runQ : Run (ClientTask.machine far) ClientTask.Calm Q logQ) (a b ka kb : Nat)
    (linkP : Link ν (served log) s logP a ka) (linkQ : Link ν (served log) i logQ b kb)
    (connects : (P.client a).kind.connects = true) (accepts : (Q.client b).kind.accepts = true)
    (agreed : near.key = far.key) :
    (∀ tx ∈ (view a logP).tx, ∀ rx ∈ (view b logQ).rx, tx = rx) ∧
      ∀ tx ∈ (view b logQ).tx, ∀ rx ∈ (view a logP).rx, tx = rx := by
  obtain ⟨⟨t,behind,said,put⟩,⟨t',behind',said',put'⟩⟩ :=
    acrossRun run paired runP linkP connects runQ linkQ accepts
  have spoke := saidSpoke runP (a := a) (by rw [said]; simp [message])
  have spoke' := saidSpoke runQ (a := b) (by rw [said']; simp [message])
  exact ⟨fun tx set rx set' => directionAgrees spoke spoke' agreed said put linkQ.down set set',
    fun tx set rx set' => directionAgrees spoke' spoke agreed.symm said' put' linkP.down set set'⟩

theorem linkWhole {L : Log Server SessionTask.Event} {c : Sid} {logP : Log Process ClientTask.Event} {a k : Nat}
    (connected : (a,k) ∈ connections logP) (up : ν.arrived c = onto k logP)
    (down : (view a logP).heard = written c L) :
    Link ν L c logP a k :=
  ⟨connected,up ▸ List.prefix_rfl,down ▸ List.prefix_rfl⟩

def pairOf (up down : Bytes) (n m : Nat) : List Call :=
  [.serve (.accept 5),.arrive 0 ([2,0] ++ sevens.bytes),.message 0 .zero,.token 0 .zero,.serve (.lock 0),
    .serve (.send 0 18),.serve (.sendReturn 0 18),
    .serve (.accept 6),.arrive 1 ([1,3] ++ sevens.bytes ++ up),.message 1 .zero,.token 1 .zero,
    .serve (.lock 1),.serve (.send 1 18),.serve (.sendReturn 1 18),
    .serve (.accept 7),.arrive 2 ([1,4] ++ sevens.bytes ++ down),.message 2 .zero,.token 2 .zero,
    .serve (.wake 1 9),.load 1 true n,.store 1 true n,.load 1 false m,.store 1 false m]

def sharedKey : ClientTask.Key := ⟨List.replicate 16 1,List.replicate 4 2⟩

def sealedConnect : List ClientTask.Action :=
  [.spawn .portConnect .zero,.socket 0 5 true,.connectReturn 0 0,.send 0 2,.sendReturn 0 2 (.plain none),
    .send 0 16,.sendReturn 0 16 (.plain none),.send 0 8,.sendReturn 0 8 (.plain none),
    .recvReturn 0 (some (List.replicate 8 3)) (.plain none)]

def sealedAccept : List ClientTask.Action :=
  [.spawn .portAccept sevens,.socket 0 5 true,.connectReturn 0 0,.send 0 18,
    .sendReturn 0 18 ⟨true,true,List.replicate 8 3,⟨24,80⟩,none⟩,.send 0 8,.sendReturn 0 8 (.plain none),
    .recvReturn 0 (some (List.replicate 8 9)) (.plain none)]

theorem keysAgreeShared : ∃ P logP Q logQ,
    Run (ClientTask.machine (loopbackHost (some sharedKey))) ClientTask.Calm P logP ∧
    Run (ClientTask.machine (loopbackHost (some sharedKey))) ClientTask.Calm Q logQ ∧
    (view 0 logP).tx = [cryptoInfo sharedKey (List.replicate 8 9)] ∧
    ∀ rx ∈ (view 0 logQ).rx, cryptoInfo sharedKey (List.replicate 8 9) = rx := by
  obtain ⟨P,logP,runP,showsP⟩ := replayReaches (ClientTask.machine (loopbackHost (some sharedKey))) ClientTask.Calm
    sealedConnect (fun (P,log) => (0,3) ∈ connections log ∧ (P.client 0).kind = .portConnect ∧
      onto 3 log = [1,3] ++ sevens.bytes ++ List.replicate 8 9 ∧ (view 0 log).heard = List.replicate 8 3 ∧
      (view 0 log).tx = [cryptoInfo sharedKey (List.replicate 8 9)]) (by decide +kernel)
  obtain ⟨Q,logQ,runQ,showsQ⟩ := replayReaches (ClientTask.machine (loopbackHost (some sharedKey))) ClientTask.Calm
    sealedAccept (fun (Q,log) => (0,3) ∈ connections log ∧ (Q.client 0).kind = .portAccept ∧
      onto 3 log = [1,4] ++ sevens.bytes ++ List.replicate 8 3 ∧ (view 0 log).heard = List.replicate 8 9)
    (by decide +kernel)
  obtain ⟨ν,log,run,shows⟩ := replayReaches (Streams.machine (plainConfig 120 none)) Streams.Calm
    (pairOf (List.replicate 8 9) (List.replicate 8 3) 8 8) (fun (ν,log) => (2,1) ∈ pairs (served log) ∧
      ν.arrived 1 = [1,3] ++ sevens.bytes ++ List.replicate 8 9 ∧
      ν.arrived 2 = [1,4] ++ sevens.bytes ++ List.replicate 8 3 ∧
      written 1 (served log) = List.replicate 8 3 ∧ written 2 (served log) = List.replicate 8 9) (by decide +kernel)
  obtain ⟨paired,up,up',down,down'⟩ := of_decide_eq_true shows
  obtain ⟨connected,kind,put,heard,tx⟩ := of_decide_eq_true showsP
  obtain ⟨connected',kind',put',heard'⟩ := of_decide_eq_true showsQ
  have agree := keysAgree _ ν log run 2 1 paired _ _ P Q logP logQ runP runQ 0 0 3 3
    (linkWhole connected (up.trans put.symm) (heard.trans down.symm))
    (linkWhole connected' (up'.trans put'.symm) (heard'.trans down'.symm))
    (by rw [kind]; rfl) (by rw [kind']; rfl) rfl
  exact ⟨P,logP,Q,logQ,runP,runQ,tx,agree.1 _ (by rw [tx]; exact List.mem_singleton_self _)⟩

theorem targetReached (cfg : SessionTask.Config) (ν : Net) (log : Log Net SessionTask.Event)
    (run : Run (Streams.machine cfg) Streams.Calm ν log) (i s : Sid) (paired : (i,s) ∈ pairs (served log))
    (near far : Host) (P Q : Process) (logP logQ : Log Process ClientTask.Event)
    (runP : Run (ClientTask.machine near) ClientTask.Calm P logP)
    (runQ : Run (ClientTask.machine far) ClientTask.Calm Q logQ) (a b ka kb : Nat)
    (linkP : Link ν (served log) s logP a ka) (linkQ : Link ν (served log) i logQ b kb)
    (port : (P.client a).kind = .portConnect) (open' : near.key = none) (open'' : far.key = none)
    (addr : Text) (literal : (near.inetPton.v4 addr).isSome ∨ (near.inetPton.v6 addr).isSome)
    (remote : near.config.remoteAddress = some addr) (small : near.config.remotePort.toNat ≤ 65535)
    (t : Target) (dialled : t ∈ (view b logQ).targets) :
    Denotes near.inetPton addr near.config.remotePort.toNat t ∧
      (view b logQ).down <+: (view a logP).up ∧ (view a logP).down <+: (view b logQ).up := by
  have spoke' : Spoke far (Q.client b).kind (Q.client b).token (view b logQ) := by
    rcases spokeRun (fun _ _ calm => calm.2) runQ b with none' | spoke'
    · rw [none'] at dialled
      simp [View.empty] at dialled
    · exact spoke'
  have accepts : (Q.client b).kind.accepts = true := by
    rw [(spoke'.targets t dialled).1]
    rfl
  have across := acrossRun run paired runP linkP (by rw [port]; rfl) runQ linkQ accepts
  obtain ⟨⟨u,behind,said,_⟩,_⟩ := across
  have spoke := saidSpoke runP (a := a) (by rw [said]; simp [message])
  have all := reaches (acrossRun run paired runP linkP (by rw [port]; rfl) runQ linkQ accepts) linkP.down linkQ.down
    spoke spoke' port open' open'' dialled
  have wire : portConnect near.inetPton near.order near.config =
      (sent near.inetPton addr near.config.remotePort).bytes := by
    rw [portConnect,remote,Option.getD_some,infoSent]
  refine ⟨?_,all.forth,all.back⟩
  have target := all.target
  rw [wire] at target
  exact (literalKept small literal).dials t target

def loopbackUp : Bytes := [4,0,80,127,0,0,1] ++ List.replicate 12 0 ++ [104,105]

def acceptOnce : List ClientTask.Action :=
  [.spawn .portAccept sevens,.socket 0 5 true,.connectReturn 0 0,.send 0 18,.sendReturn 0 18 (.plain none),
    .recvReturn 0 (some (loopbackUp.take 19)) (.plain (some 6)),.connectReturn 0 0,.relay 0 false [104],
    .relay 0 true [111]]

def loopbackTarget : Target := .v4 ⟨[127,0,0,1],rfl⟩ 80

theorem targetReachedLoopback : ∃ Q logQ P logP, Run
    (ClientTask.machine (loopbackHost none)) ClientTask.Calm Q logQ ∧
    Run (ClientTask.machine (loopbackHost none)) ClientTask.Calm P logP ∧ loopbackTarget ∈ (view 0 logQ).targets ∧
    Denotes inetPton Config.loopback 80 loopbackTarget ∧ (view 0 logQ).down <+: (view 1 logP).up := by
  obtain ⟨P,logP,runP,showsP⟩ := replayReaches (ClientTask.machine (loopbackHost none)) ClientTask.Calm listenOnce
    (fun (P,log) => (1,5) ∈ connections log ∧ (P.client 1).kind = .portConnect ∧
      onto 5 log = [1,3] ++ sevens.bytes ++ loopbackUp ∧ (view 1 log).heard = [111]) (by decide +kernel)
  obtain ⟨Q,logQ,runQ,showsQ⟩ := replayReaches (ClientTask.machine (loopbackHost none)) ClientTask.Calm acceptOnce
    (fun (_,log) => (0,3) ∈ connections log ∧ loopbackTarget ∈ (view 0 log).targets ∧
      onto 3 log = [1,4] ++ sevens.bytes ++ [111] ∧ (view 0 log).heard = loopbackUp.take 20) (by decide +kernel)
  obtain ⟨ν,log,run,shows⟩ := replayReaches (Streams.machine (plainConfig 120 none)) Streams.Calm
    (pairOf loopbackUp [111] 20 1) (fun (ν,log) => (2,1) ∈ pairs (served log) ∧
      ν.arrived 1 = [1,3] ++ sevens.bytes ++ loopbackUp ∧ ν.arrived 2 = [1,4] ++ sevens.bytes ++ [111] ∧
      written 1 (served log) = [111] ∧ written 2 (served log) = loopbackUp.take 20) (by decide +kernel)
  obtain ⟨paired,up,up',down,down'⟩ := of_decide_eq_true shows
  obtain ⟨connected,kind,put,heard⟩ := of_decide_eq_true showsP
  obtain ⟨connected',dialled,put',heard'⟩ := of_decide_eq_true showsQ
  obtain ⟨denotes,forth,_⟩ := targetReached _ ν log run 2 1 paired _ _ P Q logP logQ runP runQ 1 0 5 3
    (linkWhole connected (up.trans put.symm) (heard.trans down.symm))
    (linkWhole connected' (up'.trans put'.symm) (heard'.trans down'.symm))
    kind rfl rfl Config.loopback (by decide +kernel) rfl (by decide) loopbackTarget dialled
  exact ⟨Q,logQ,P,logP,runQ,runP,dialled,denotes,forth⟩

end ends

end HevFsh.EndToEnd
