import HevFsh.Config

/-! The address parsers of hev-main.c and parse_client, which puts what they find
into the configuration. A text has no zero byte in it. -/
namespace HevFsh.CommandLine
open Inet CText Config HostOrder

def comma : UInt8 := 44
def slash : UInt8 := 47
def colon : UInt8 := 58
def opening : UInt8 := 91
def closing : UInt8 := 93

structure Parsed where
  b : Text
  addr : Option Nat
  port : Option Nat
  token : Option Nat
  deriving DecidableEq, Repr

/- The state machine of parse_addr: `done` is what is before b[i]. In state 4 a
character that is not special takes two passes, the first of which only goes to 5. -/
def parseAddrLoop (done : Text) (s : Nat) (p : Option Nat × Option Nat × Option Nat) : Text → Option Parsed
  | [] => some ⟨done,p.1,p.2.1,p.2.2⟩
  | c::rest =>
      if c = comma then some ⟨done ++ 0 :: rest,p.1,p.2.1,p.2.2⟩
      else if c = colon then
        if s ≠ 1 ∧ s ≠ 4 ∧ s ≠ 5 ∧ s ≠ 6 then none
        else if s = 1 then parseAddrLoop (done ++ [0]) 2 (p.1,some (done.length + 1),p.2.2) rest
        else if s = 6 then parseAddrLoop (done ++ [0]) 7 (p.1,some (done.length + 1),p.2.2) rest
        else parseAddrLoop (done ++ [c]) 5 p rest
      else if c = slash then
        if s ≠ 1 ∧ s ≠ 2 ∧ s ≠ 6 ∧ s ≠ 7 then none
        else parseAddrLoop (done ++ [0]) s (p.1,p.2.1,some (done.length + 1)) rest
      else if c = opening then
        if s ≠ 0 then none
        else parseAddrLoop (done ++ [c]) 4 (some (done.length + 1),p.2.1,p.2.2) rest
      else if c = closing then
        if s ≠ 5 then none
        else parseAddrLoop (done ++ [0]) 6 p rest
      else if s = 0 then parseAddrLoop (done ++ [c]) 1 (some done.length,p.2.1,p.2.2) rest
      else if s = 4 then parseAddrLoop (done ++ [c]) 5 p rest
      else parseAddrLoop (done ++ [c]) s p rest

def parseAddr (str : Text) : Option Parsed := parseAddrLoop [] 0 (none,none,none) str

def textAt (b : Text) (at' : Nat) : Text := content (b.drop at')

def uint16 (n : Int) : UInt16 := UInt16.ofNat (n % 2 ^ 16).toNat

def uint32 (n : Int) : UInt32 := UInt32.ofNat (n % 2 ^ 32).toNat

def setAddrList (N : InetPton) (order : ByteOrder) (config : Config) (str : Text) (action : Int) : Int × Config :=
  match parseAddr str with
  | none => (-1,config)
  | some ⟨b,some addr,some port,_⟩ =>
      let nport := (htons order (uint16 (atoi (textAt b port)))).toUInt32
      match N.v4 (textAt b addr) with
      | some a => (0,addrListAdd (addrListAdd config 4 a.bytes nport action) 6 a.mapped.bytes nport action)
      | none => match N.v6 (textAt b addr) with
          | none => (-1,config)
          | some a =>
              let config := addrListAdd config 6 a.bytes nport action
              (0,if a.isV4Mapped then addrListAdd config 4 a.last4.bytes nport action else config)
  | some _ => (-1,config)

def parseSetAddrListLoop (N : InetPton) (order : ByteOrder) (action : Int) (s : Nat) (config : Config) :
    Text → Int × Config
  | [] => (0,config)
  | c::rest =>
      if c = comma then parseSetAddrListLoop N order action 0 config rest
      else if s = 0 then
        let (res,config) := setAddrList N order config (c::rest) action
        if res < 0 then (-1,config) else parseSetAddrListLoop N order action 1 config rest
      else parseSetAddrListLoop N order action s config rest

def parseSetAddrList (N : InetPton) (order : ByteOrder) (config : Config) (str : Text) (action : Int) : Int × Config :=
  parseSetAddrListLoop N order action 0 config str

/- `ps` holds the j parts found so far. -/
def parseAddrPairLoop (done : Text) (s : Nat) (ps : List Nat) : Text → Option (Text × List Nat)
  | [] => some (done,ps)
  | c::rest =>
      if c = colon then
        if s ≠ 1 ∧ s ≠ 2 ∧ s ≠ 3 then none
        else if s = 1 ∨ s = 3 then
          parseAddrPairLoop (done ++ [0]) (if ps.length < 4 then 0 else s) ps rest
        else parseAddrPairLoop (done ++ [c]) s ps rest
      else if c = opening then
        if s ≠ 0 then none
        else parseAddrPairLoop (done ++ [c]) 2 (ps ++ [done.length + 1]) rest
      else if c = closing then
        if s ≠ 2 then none
        else parseAddrPairLoop (done ++ [0]) 3 ps rest
      else if s = 0 then parseAddrPairLoop (done ++ [c]) 1 (ps ++ [done.length]) rest
      else parseAddrPairLoop (done ++ [c]) s ps rest

def parseAddrPair (str : Text) : Option (Text × List Nat) := parseAddrPairLoop [] 0 [] str

def parseSetAddrPair (config : Config) (str : Text) : Int × Config :=
  match parseAddrPair str with
  | some (b,[p₀,p₁,p₂,p₃]) =>
      (0,{ config with
        localAddress := some (textAt b p₀), localPort := uint32 (atoi (textAt b p₁)),
        remoteAddress := some (textAt b p₂), remotePort := uint32 (atoi (textAt b p₃)) })
  | some (b,[p₀,p₁,p₂]) =>
      (0,{ config with
        localPort := uint32 (atoi (textAt b p₀)),
        remoteAddress := some (textAt b p₁), remotePort := uint32 (atoi (textAt b p₂)) })
  | some (b,[p₀,p₁]) =>
      (0,{ config with remoteAddress := some (textAt b p₀), remotePort := uint32 (atoi (textAt b p₁)) })
  | _ => (-1,config)

def parseSetAddr (config : Config) (str : Text) : Int × Config :=
  if colon ∉ str then (0,{ config with localPort := uint32 (atoi str) })
  else match parseAddr str with
    | some ⟨b,some addr,some port,_⟩ =>
        (0,{ config with localAddress := some (textAt b addr), localPort := uint32 (atoi (textAt b port)) })
    | _ => (-1,config)

def parsePortForwarder (N : InetPton) (order : ByteOrder) (config : Config) (w b : Option Text) : Int × Config :=
  match w,b with
  | some _,some _ => (-1,config)
  | some w,none =>
      parseSetAddrList N order (addrListAdd config 0 [] 0 0) w 1
  | none,some b =>
      parseSetAddrList N order (addrListAdd config 0 [] 0 1) b 0
  | none,none => (0,addrListAdd config 0 [] 0 1)

def setServer (config : Config) (parsed : Parsed) : Config :=
  { config with
    serverAddress := parsed.addr.map (textAt parsed.b),
    serverPort := match parsed.port with
      | some port => some (textAt parsed.b port)
      | none => config.serverPort,
    token := parsed.token.map (textAt parsed.b) }

def parseClient (N : InetPton) (order : ByteOrder) (config : Config) (f p x : Bool) (t₁ t₂ w b u : Option Text) :
    Int × Config :=
  let ap := if !f && (p || x) then t₁ else none
  let sa := if !f && (p || x) then t₂ else t₁
  match sa.bind parseAddr with
  | none => (-1,config)
  | some parsed =>
      let config := setServer config parsed
      if f then
        if p then
          let (res,config) := parsePortForwarder N order config w b
          if res < 0 then (-1,config) else (0,setMode config .forwarderPort)
        else if x then (0,setMode config .forwarderSock)
        else (0,setMode { config with user := u } .forwarderTerm)
      else if config.token = none then (-1,config)
      else if p then
        let (res,config) := parseSetAddrPair config (ap.getD [])
        if res < 0 then (-1,config) else (0,setMode config .connectorPort)
      else if x then
        let (res,config) := parseSetAddr config (ap.getD [])
        if res < 0 then (-1,config) else (0,setMode config .connectorSock)
      else (0,setMode config .connectorTerm)

end HevFsh.CommandLine
