import HevFsh.ParseArgs
import HevFsh.AddrText
import HevFsh.PortNumbers

/-! The command lines that the usage describes, in any order of their options, and what
parse_args makes of them. -/
namespace HevFsh.CommandForms
open Protocol Inet CText HostOrder Config CommandLine OptionScan Getopt AddrText PairText ParseArgs
open PortNumbers (Numeral)

/- SERVER_ADDR[:SERVER_PORT][/TOKEN] -/
structure Place where
  bracketed : Bool
  addr : Text
  port : Option Text
  token : Option Text
  deriving DecidableEq, Repr

def Place.text (at' : Place) : Text := AddrText.render at'.bracketed at'.addr at'.port at'.token

structure Place.Fits (at' : Place) : Prop where
  some' : at'.addr ≠ []
  host : if at'.bracketed then Inner at'.addr else Plain at'.addr
  port : ∀ t ∈ at'.port, Plain t
  token : ∀ t ∈ at'.token, Plain t
  front : at'.bracketed = false → at'.addr.head? ≠ some dash

/- [[LOCAL_ADDR:]LOCAL_PORT:]REMOTE_ADDR:REMOTE_PORT -/
structure Mapping where
  listen : Option (Option Field × Field)
  remote : Field
  remotePort : Field
  deriving DecidableEq, Repr

def Mapping.front (m : Mapping) : List Field :=
  match m.listen with
  | none => []
  | some (none,port) => [port]
  | some (some address,port) => [address,port]

def Mapping.fields (m : Mapping) : List Field := m.front ++ [m.remote,m.remotePort]

def Mapping.text (m : Mapping) : Text := joined m.fields

structure Mapping.Fits (m : Mapping) : Prop where
  fields : ∀ f ∈ m.fields, f.Fits
  port : ∀ l ∈ m.listen, Numeral l.2.text
  remotePort : Numeral m.remotePort.text
  front : m.text.head? ≠ some dash

/- [LOCAL_ADDR:]LOCAL_PORT -/
structure Listen where
  address : Option (Bool × Text)
  port : Text
  deriving DecidableEq, Repr

def Listen.place (l : Listen) (a : Bool × Text) : Place := ⟨a.1,a.2,some l.port,none⟩

def Listen.text (l : Listen) : Text :=
  match l.address with
  | none => l.port
  | some a => (l.place a).text

structure Listen.Fits (l : Listen) : Prop where
  port : Numeral l.port
  address : ∀ a ∈ l.address, (l.place a).Fits

inductive Role where
  | server (tokens : Option Text) (at' : Option Place)
  | forwarderTerm (user : Option Text) (at' : Place)
  | forwarderPort (list : Option (Bool × List (Option Element))) (at' : Place)
  | forwarderSock (at' : Place)
  | connectorTerm (at' : Place)
  | connectorPort (mapping : Mapping) (at' : Place)
  | connectorSock (listen : Listen) (at' : Place)

def Role.operands : Role → List Text
  | .server _ at' => (at'.map Place.text).toList
  | .forwarderTerm _ at' => [at'.text]
  | .forwarderPort _ at' => [at'.text]
  | .forwarderSock at' => [at'.text]
  | .connectorTerm at' => [at'.text]
  | .connectorPort mapping at' => [mapping.text,at'.text]
  | .connectorSock listen at' => [listen.text,at'.text]

def Visible (t : Text) : Prop := ∀ c ∈ t, c ≠ 0

def Role.Fits (N : InetPton) : Role → Prop
  | .server tokens at' => (∀ t ∈ tokens, Visible t) ∧ ∀ a ∈ at', Place.Fits a ∧ a.token = none
  | .forwarderTerm user at' => (∀ t ∈ user, Visible t) ∧ at'.Fits
  | .forwarderPort list at' => (∀ l ∈ list, Visible (listText l.2) ∧ ∀ e,
      some e ∈ l.2 → e.Port ∧ e.Literal N) ∧ at'.Fits
  | .forwarderSock at' => at'.Fits
  | .connectorTerm at' => at'.Fits ∧ at'.token ≠ none
  | .connectorPort mapping at' => mapping.Fits ∧ at'.Fits ∧ at'.token ≠ none
  | .connectorSock listen at' => listen.Fits ∧ at'.Fits ∧ at'.token ≠ none

def number (t : Text) : UInt32 := UInt32.ofNat (decValue t)

def Place.configure (at' : Place) (mode : Mode) : Config :=
  { configNew with
    mode := mode,
    serverAddress := some at'.addr,
    serverPort := at'.port.or configNew.serverPort,
    token := at'.token }

def Role.configure (N : InetPton) (order : ByteOrder) : Role → Config
  | .server _ none => { configNew with mode := .server, serverAddress := some anyAddress }
  | .server _ (some at') => at'.configure .server
  | .forwarderTerm user at' => { at'.configure .forwarderTerm with user := user }
  | .forwarderPort none at' => { at'.configure .forwarderPort with addrList := [⟨0,1,.zero,0⟩] }
  | .forwarderPort (some (true,es)) at' =>
      { at'.configure .forwarderPort with addrList := listNodes N order 1 es ++ [⟨0,0,.zero,0⟩] }
  | .forwarderPort (some (false,es)) at' =>
      { at'.configure .forwarderPort with addrList := listNodes N order 0 es ++ [⟨0,1,.zero,0⟩] }
  | .forwarderSock at' => at'.configure .forwarderSock
  | .connectorTerm at' => at'.configure .connectorTerm
  | .connectorPort m at' =>
      { at'.configure .connectorPort with
        localAddress := match m.listen with
          | some (some address,_) => some address.text
          | _ => some loopback,
        localPort := match m.listen with
          | some (_,port) => number port.text
          | none => 0,
        remoteAddress := some m.remote.text,
        remotePort := number m.remotePort.text }
  | .connectorSock l at' =>
      { at'.configure .connectorSock with
        localAddress := match l.address with
          | some a => some a.2
          | none => some loopback,
        localPort := number l.port }

def flag (given : Bool) : Option (Option Text) := if given then some none else none

structure RoleOptions where
  s : Bool
  a : Option Text
  f : Bool
  u : Option Text
  p : Bool
  x : Bool
  w : Option Text
  b : Option Text

def Role.options : Role → RoleOptions
  | .server tokens _ => ⟨true,tokens,false,none,false,false,none,none⟩
  | .forwarderTerm user _ => ⟨false,none,true,user,false,false,none,none⟩
  | .forwarderPort none _ => ⟨false,none,true,none,true,false,none,none⟩
  | .forwarderPort (some (true,es)) _ => ⟨false,none,true,none,true,false,some (listText es),none⟩
  | .forwarderPort (some (false,es)) _ => ⟨false,none,true,none,true,false,none,some (listText es)⟩
  | .forwarderSock _ => ⟨false,none,true,none,false,true,none,none⟩
  | .connectorTerm _ => ⟨false,none,false,none,false,false,none,none⟩
  | .connectorPort _ _ => ⟨false,none,false,none,true,false,none,none⟩
  | .connectorSock _ _ => ⟨false,none,false,none,false,true,none,none⟩

inductive IpType where
  | four | six
  deriving DecidableEq, Repr

structure Line where
  ip : Option IpType
  key : Option Text
  timeout : Option Text
  log : Option Text
  cc : Option Text
  verbose : Bool
  ugly : Bool
  role : Role

/- TIMEOUT is a number that an unsigned int can hold, and a key has twenty bytes. -/
structure Line.Fits (files : Text → Option Bytes) (N : InetPton) (line : Line) : Prop where
  key : ∀ t ∈ line.key, Visible t ∧ ∃ bytes, files t = some bytes ∧ 20 ≤ bytes.length
  timeout : ∀ t ∈ line.timeout, t ≠ [] ∧ (∀ c ∈ t, isdigit c = true) ∧ decValue t < 2 ^ 32
  log : ∀ t ∈ line.log, Visible t
  cc : ∀ t ∈ line.cc, Visible t
  role : line.role.Fits N

def Line.table (line : Line) : List (UInt8 × Option (Option Text)) :=
  let o := line.role.options
  [(ascii '4',flag (line.ip = some .four)),(ascii '6',flag (line.ip = some .six)),(ascii 'k',line.key.map some),
    (ascii 't',line.timeout.map some),(ascii 'l',line.log.map some),(ascii 'c',line.cc.map some),
    (ascii 'v',flag line.verbose),(ascii 'U',flag line.ugly),(ascii 's',flag o.s),(ascii 'a',o.a.map some),
    (ascii 'f',flag o.f),(ascii 'u',o.u.map some),(ascii 'p',flag o.p),(ascii 'x',flag o.x),(ascii 'w',o.w.map some),
    (ascii 'b',o.b.map some)]

def entries (table : List (UInt8 × Option (Option Text))) : List Item :=
  table.filterMap (fun e => e.2.map (fun a => (e.1,a)))

def Line.items (line : Line) : List Item := entries line.table

def Line.expected (files : Text → Option Bytes) (N : InetPton) (order : ByteOrder) (line : Line) : FshConfig where
  toConfig := line.role.configure N order
  crypto := line.key.isSome
  ipType := if line.ip = some .four then 4 else if line.ip = some .six then 6 else 0
  logLevel := if line.verbose then .debug else .info
  uglyKtls := line.ugly && line.key.isSome
  timeout := (line.timeout.map number).getD 120
  tcpCc := line.cc
  logPath := line.log
  tokensFile := line.role.options.a
  key := match line.key with
    | some path => ((files path).getD []).take 20
    | none => List.replicate 20 0

inductive Chunk where
  | operand (t : Text)
  | options (flags : List UInt8) (last : Option (UInt8 × Text × Bool))

def Chunk.words : Chunk → List Text
  | .operand t => [t]
  | .options flags none => [dash :: flags]
  | .options flags (some (c,arg,true)) => [dash :: (flags ++ c :: arg)]
  | .options flags (some (c,arg,false)) => [dash :: (flags ++ [c]),arg]

def Chunk.items : Chunk → List Item
  | .operand _ => []
  | .options flags last => flags.map (fun c => (c,none)) ++ (last.map (fun l => (l.1,some l.2.1))).toList

def Chunk.operands : Chunk → List Text
  | .operand t => [t]
  | .options _ _ => []

def Chunk.Shaped : Chunk → Prop
  | .operand _ => True
  | .options flags last => (flags ≠ [] ∨ last ≠ none) ∧ ∀ l ∈ last, l.2.2 = true → l.2.1 ≠ []

structure Arranged (line : Line) (chunks : List Chunk) : Prop where
  shaped : ∀ chunk ∈ chunks, chunk.Shaped
  items : (chunks.flatMap Chunk.items).Perm line.items
  operands : chunks.flatMap Chunk.operands = line.role.operands

section scanning
variable {w t : Text} {flags cs tail ws : List UInt8} {pos : Nat} {c : UInt8}

def shown (r : Item) : Item := (if r.1 = colon ∨ strchr optstring r.1 = none then question else r.1,r.2)

theorem takesKnown (taker : takes c = true) : ¬ (c = colon ∨ strchr optstring c = none) := by
  rintro (rfl | none')
  · exact absurd taker (by decide)
  · simp [takes,none'] at taker

theorem shownTaker (taker : takes c = true) (a : Option Text) : shown (c,a) = (c,a) := by
  simp only [shown,if_neg (takesKnown taker)]

theorem lettersFlags (flagged : ∀ c ∈ flags, takes c = false) : letters w pos (flags ++ tail) =
    (flags.map (fun c => ((shown (c,none)).1,none)) ++ (letters w (pos + flags.length) tail).1,
      (letters w (pos + flags.length) tail).2) := by
  induction flags generalizing pos with
  | nil => rfl
  | cons c flags ih =>
    have later := @ih (pos + 1) (fun x mem => flagged x (List.mem_cons_of_mem c mem))
    have place : pos + 1 + flags.length = pos + (c::flags).length := by
      simp only [List.length_cons]
      omega
    rw [place] at later
    rw [List.cons_append,letters]
    by_cases unknown : c = colon ∨ strchr optstring c = none
    · rw [if_pos unknown,later]
      simp [shown,unknown]
    · rw [if_neg unknown,if_neg (by simp [flagged c List.mem_cons_self]),later]
      simp [shown,unknown]

theorem contentVisible (visible : Visible t) : content t = t := by
  unfold content
  rw [List.takeWhile_eq_self_iff]
  simpa [Visible] using visible

theorem operandWord (visible : Visible t) (front : t.head? ≠ some dash) : (reading strings).word t = .operand := by
  have first : charAt (strings.text t) 0 ≠ dash := by
    have whole : strings.text t = t := contentVisible visible
    rw [whole]
    cases t with
    | nil => decide
    | cons c t => simpa [charAt] using front
  exact if_pos (by simp [isOperand,first])

theorem optionWord (visible : ∀ c ∈ cs, c ≠ 0) (some' : cs ≠ []) (front : cs.head? ≠ some dash) :
    (reading strings).word (dash::cs) = .option (letters (dash::cs) 1 cs).1 (letters (dash::cs) 1 cs).2 := by
  obtain ⟨c,cs,rfl⟩ := List.exists_cons_of_ne_nil some'
  have whole : strings.text (dash::c::cs) = dash::c::cs := contentVisible (by
    intro d mem
    rcases List.mem_cons.mp mem with rfl | later
    · decide
    · exact visible d later)
  have first : c ≠ 0 := visible c List.mem_cons_self
  have second : c ≠ dash := by simpa using front
  have operand : isOperand strings (dash::c::cs) = false := by simp [isOperand,whole,charAt,first]
  have ending : isEnding strings (dash::c::cs) = false := by simp [isEnding,whole,charAt,second]
  have word : (reading strings).word (dash::c::cs) = .option _ _ :=
    (if_neg (by simp [operand])).trans (if_neg (by simp [ending]))
  rw [word,whole]
  rfl

def Chunk.Good : Chunk → Prop
  | .operand t => Visible t ∧ t.head? ≠ some dash
  | .options flags last => (flags ≠ [] ∨ last ≠ none) ∧ (∀ c ∈ flags,
      takes c = false ∧ c ≠ 0 ∧ c ≠ dash) ∧
      ∀ l ∈ last, takes l.1 = true ∧ l.1 ≠ 0 ∧ l.1 ≠ dash ∧ Visible l.2.1 ∧ (l.2.2 = true →
          l.2.1 ≠ [])

theorem flagsResolved (flags : List UInt8) :
    (flags.map (fun c => (((shown (c,none)).1,none) : Result Text))).map resolved =
      (flags.map (fun c => ((c,none) : Item))).map shown := by
  rw [List.map_map,List.map_map]
  exact List.map_congr_left (fun c _ => rfl)

theorem chunkScan {chunk : Chunk} (good : chunk.Good) (ws : List Text) : ∃ rs : List (Result Text),
    rs.map resolved = chunk.items.map shown ∧
      gnuGetopt strings (chunk.words ++ ws) = add rs (shift chunk.operands (gnuGetopt strings ws)) := by
  cases chunk with
  | operand t =>
    refine ⟨[],rfl,?_⟩
    simp only [gnuGetopt,Chunk.words,Chunk.operands,List.cons_append,List.nil_append,scanAll,operandWord good.1 good.2]
    rfl
  | options flags last =>
    obtain ⟨some',flagged,argued⟩ := good
    have takeless : ∀ c ∈ flags, takes c = false := fun c mem => (flagged c mem).1
    cases last with
    | none =>
      have word := @optionWord flags (fun c mem => (flagged c mem).2.1) (some'.resolve_right (by simp)) (by
        intro first
        exact (flagged dash (List.mem_of_mem_head? first)).2.2 rfl)
      have read := @lettersFlags (dash::flags) flags [] 1 takeless
      rw [List.append_nil] at read
      refine ⟨_,flagsResolved flags |>.trans (by simp [Chunk.items]),?_⟩
      simp only [gnuGetopt,Chunk.words,Chunk.operands,List.cons_append,List.nil_append,scanAll,word,read,letters,
        List.append_nil]
      rfl
    | some l =>
      obtain ⟨c,arg,attached⟩ := l
      obtain ⟨taker,visible,dashless,visible',nonempty⟩ := argued _ rfl
      have front : ∀ more, (flags ++ c :: more).head? ≠ some dash := by
        intro more first
        cases flags with
        | nil => exact dashless (Option.some.inj first)
        | cons d flags => exact (flagged d List.mem_cons_self).2.2 (Option.some.inj first)
      have seen : ∀ more, Visible more → ∀ d ∈ flags ++ c :: more, d ≠ 0 := by
        intro more plain d mem
        rcases List.mem_append.mp mem with flag | last
        · exact (flagged d flag).2.1
        · rcases List.mem_cons.mp last with rfl | later
          · exact visible
          · exact plain d later
      have last' : ∀ a : Option Text, [shown (c,a)] = [(c,a)] := fun a => by rw [shownTaker taker]
      cases attached with
      | true =>
        have word := optionWord (seen arg visible') (by simp) (front arg)
        have read := @lettersFlags (dash :: (flags ++ c :: arg)) flags (c::arg) 1 takeless
        have whole : content (dash :: (flags ++ c :: arg)) = dash :: (flags ++ c :: arg) := contentVisible (by
          intro d mem
          rcases List.mem_cons.mp mem with rfl | later
          · decide
          · exact seen arg visible' d later)
        have attached' : (dash :: (flags ++ c :: arg)).drop (1 + flags.length + 1) = arg := by
          have split : dash :: (flags ++ c :: arg) = (dash :: (flags ++ [c])) ++ arg := by simp
          rw [split]
          refine List.drop_left' ?_
          simp
          omega
        rw [letters,if_neg (takesKnown taker),if_pos taker,if_neg (nonempty rfl)] at read
        refine ⟨flags.map (fun c => ((shown (c,none)).1,none)) ++
            [(c,some (dash :: (flags ++ c :: arg),1 + flags.length + 1))],
          ?_,?_⟩
        · rw [List.map_append,flagsResolved]
          simp only [Chunk.items,Option.map_some,Option.toList_some,List.map_append,List.map_cons,List.map_nil,last']
          simp only [resolved,Option.map_some,whole,attached']
        · simp only [gnuGetopt,Chunk.words,Chunk.operands,List.cons_append,List.nil_append,scanAll,word,read]
          rfl
      | false =>
        have word := optionWord (seen [] (by simp [Visible])) (by simp) (front [])
        have read := @lettersFlags (dash :: (flags ++ [c])) flags [c] 1 takeless
        rw [letters,if_neg (takesKnown taker),if_pos taker,if_pos rfl] at read
        refine ⟨flags.map (fun c => ((shown (c,none)).1,none)) ++ [(c,some (arg,0))],?_,?_⟩
        · rw [List.map_append,flagsResolved]
          simp only [Chunk.items,Option.map_some,Option.toList_some,List.map_append,List.map_cons,List.map_nil,last']
          simp only [resolved,Option.map_some,contentVisible visible',List.drop_zero]
        · simp only [gnuGetopt,Chunk.words,Chunk.operands,List.cons_append,List.nil_append,scanAll,word,read,
            List.append_nil]
          simp [add,shift,reading]

theorem chunksScan {chunks : List Chunk} (good : ∀ chunk ∈ chunks, chunk.Good) : ∃ rs : List (Result Text),
    rs.map resolved = (chunks.flatMap Chunk.items).map shown ∧
      gnuGetopt strings (chunks.flatMap Chunk.words) = (rs,chunks.flatMap Chunk.operands) := by
  induction chunks with
  | nil => exact ⟨[],rfl,rfl⟩
  | cons chunk chunks ih =>
    obtain ⟨rs,same,scans⟩ := ih (fun x mem => good x (List.mem_cons_of_mem chunk mem))
    obtain ⟨rs',same',scans'⟩ := chunkScan (good chunk List.mem_cons_self) (chunks.flatMap Chunk.words)
    refine ⟨rs' ++ rs,?_,?_⟩
    · rw [List.map_append,same,same',List.flatMap_cons,List.map_append]
    · rw [List.flatMap_cons,scans',scans]
      rfl

end scanning

section tables
variable {table : List (UInt8 × Option (Option Text))} {c : UInt8} {given : Option (Option Text)} {line : Line}

theorem entriesMem {a : Option Text} : (c,a) ∈ entries table ↔ (c,some a) ∈ table := by
  rw [entries,List.mem_filterMap]
  constructor
  · rintro ⟨⟨d,g⟩,mem,is⟩
    obtain ⟨a',rfl,same⟩ := Option.map_eq_some_iff.mp is
    cases same
    exact mem
  · exact fun mem => ⟨_,mem,rfl⟩

theorem entriesSublist : ((entries table).map Prod.fst).Sublist (table.map Prod.fst) := by
  induction table with
  | nil => exact .slnil
  | cons e table ih =>
    obtain ⟨d,g⟩ := e
    cases g with
    | none => exact ih.cons d
    | some a => exact ih.cons_cons d

theorem seenEntry (distinct : (table.map Prod.fst).Nodup) (mem : (c,given) ∈ table) :
    seen (entries table) c = given := by
  refine Option.ext (fun a => ?_)
  rw [seenIff (distinct.sublist entriesSublist),entriesMem]
  constructor
  · intro mem'
    have same := List.inj_on_of_nodup_map distinct mem mem' rfl
    exact congrArg Prod.snd same
  · rintro rfl
    exact mem

def tableLetters : List UInt8 :=
  [ascii '4',ascii '6',ascii 'k',ascii 't',ascii 'l',ascii 'c',ascii 'v',ascii 'U',ascii 's',ascii 'a',ascii 'f',
    ascii 'u',ascii 'p',ascii 'x',ascii 'w',ascii 'b']

theorem tableDistinct (line : Line) : (line.table.map Prod.fst).Nodup := by
  have letters : line.table.map Prod.fst = tableLetters := rfl
  rw [letters]
  decide

theorem itemsDistinct (line : Line) : (line.items.map Prod.fst).Nodup := (tableDistinct line).sublist entriesSublist

def ItemFits (r : Item) : Prop :=
  r.1 ≠ 0 ∧ r.1 ≠ dash ∧ match r.2 with
    | none => takes r.1 = false
    | some t => takes r.1 = true ∧ Visible t

def EntryFits (e : UInt8 × Option (Option Text)) : Prop := ∀ a, e.2 = some a → ItemFits (e.1,a)

theorem flagFits {g : Bool} (letter : c ≠ 0 ∧ c ≠ dash ∧ takes c = false) : EntryFits (c,flag g) := by
  intro a is
  cases g with
  | true =>
    cases Option.some.inj is
    exact letter
  | false => contradiction

theorem argFits {o : Option Text} (letter : c ≠ 0 ∧ c ≠ dash ∧ takes c = true)
    (visible : ∀ t ∈ o, Visible t) :
    EntryFits (c,o.map some) := by
  intro a is
  obtain ⟨t,rfl,rfl⟩ := Option.map_eq_some_iff.mp is
  exact ⟨letter.1,letter.2.1,letter.2.2,visible t rfl⟩

structure OptionsFit (o : RoleOptions) : Prop where
  a : ∀ t ∈ o.a, Visible t
  u : ∀ t ∈ o.u, Visible t
  w : ∀ t ∈ o.w, Visible t
  b : ∀ t ∈ o.b, Visible t

theorem roleOptions {N : InetPton} {role : Role} (fits : role.Fits N) : OptionsFit role.options := by
  cases role with
  | server tokens at' => exact ⟨fits.1,by simp [Role.options],by simp [Role.options],by simp [Role.options]⟩
  | forwarderTerm user at' => exact ⟨by simp [Role.options],fits.1,by simp [Role.options],by simp [Role.options]⟩
  | forwarderPort list at' =>
    cases list with
    | none => exact ⟨by simp [Role.options],by simp [Role.options],by simp [Role.options],by simp [Role.options]⟩
    | some l =>
      obtain ⟨white,es⟩ := l
      have visible := (fits.1 _ rfl).1
      cases white with
      | true =>
        refine ⟨by simp [Role.options],by simp [Role.options],?_,by simp [Role.options]⟩
        rintro t ⟨rfl⟩
        exact visible
      | false =>
        refine ⟨by simp [Role.options],by simp [Role.options],by simp [Role.options],?_⟩
        rintro t ⟨rfl⟩
        exact visible
  | _ => exact ⟨by simp [Role.options],by simp [Role.options],by simp [Role.options],by simp [Role.options]⟩

variable {files : Text → Option Bytes} {N : InetPton}

theorem digitsVisible {t : Text} (digits : ∀ c ∈ t, isdigit c = true) : Visible t :=
  fun c mem => (quadChar (.inl (digits c mem))).2.2

theorem tableFits (fits : line.Fits files N) : ∀ e ∈ line.table, EntryFits e := by
  have options := roleOptions fits.role
  simp only [Line.table,List.forall_mem_cons]
  refine ⟨flagFits (by decide),flagFits (by decide),?_,?_,argFits (by decide) fits.log,argFits (by decide) fits.cc,
    flagFits (by decide),flagFits (by decide),flagFits (by decide),argFits (by decide) options.a,
    flagFits (by decide),argFits (by decide) options.u,flagFits (by decide),flagFits (by decide),
    argFits (by decide) options.w,argFits (by decide) options.b,by simp⟩
  · exact argFits (by decide) (fun t mem => (fits.key t mem).1)
  · exact argFits (by decide) (fun t mem => digitsVisible (fits.timeout t mem).2.1)

theorem itemsFit (fits : line.Fits files N) : ∀ r ∈ line.items, ItemFits r :=
  fun r mem => tableFits fits _ (entriesMem.mp mem) r.2 rfl

theorem itemsShown (plain : line.ugly = false) :
    (∀ r ∈ line.items, shown r = r) ∧ ∀ r ∈ line.items, r.1 ∈ lettersKnown := by
  have letters : ∀ c ∈ tableLetters, c = ascii 'U' ∨ c ∈ lettersKnown := by decide +kernel
  have known : ∀ c ∈ lettersKnown, ¬ (c = colon ∨ strchr optstring c = none) := by decide +kernel
  have all : ∀ r ∈ line.items, r.1 ∈ lettersKnown := by
    intro r mem
    refine (letters r.1 (entriesSublist.subset (List.mem_map_of_mem mem))).resolve_left (fun ugly => ?_)
    have given : seen line.items r.1 = some r.2 :=
      (seenIff (itemsDistinct line)).mpr mem
    have none' : seen (entries line.table) (ascii 'U') = flag line.ugly :=
      seenEntry (tableDistinct line) (by simp [Line.table])
    rw [ugly,Line.items,none',plain] at given
    simp [flag] at given
  refine ⟨fun r mem => ?_,all⟩
  simp only [shown,if_neg (known r.1 (all r mem))]

theorem ipOnce {a a' : Option Text} (six : (ascii '6',a) ∈ line.items)
    (four : (ascii '4',a') ∈ line.items) : False := by
  have distinct := itemsDistinct line
  have six' : seen (entries line.table) (ascii '6') = flag (line.ip = some .six) :=
    seenEntry (tableDistinct line) (by simp [Line.table])
  have four' : seen (entries line.table) (ascii '4') = flag (line.ip = some .four) :=
    seenEntry (tableDistinct line) (by simp [Line.table])
  have both := ((seenIff distinct).mpr six).symm.trans six'
  have both' := ((seenIff distinct).mpr four).symm.trans four'
  cases ip : line.ip with
  | none => simp [flag,ip] at both
  | some type => cases type <;> simp [flag,ip] at both both'

theorem uglyShown (ugly : line.ugly = true) : (question,none) ∈ line.items.map shown := by
  refine List.mem_map.mpr ⟨(ascii 'U',none),entriesMem.mpr ?_,by decide⟩
  simp [Line.table,flag,ugly]

end tables

section operands
variable {at' : Place} {N : InetPton} {order : ByteOrder}

theorem placeLoose (fits : at'.Fits) : ∃ l : Loose, l.Fits ∧ l.text = at'.text ∧
    l.finds true = partTexts true (some at'.addr) at'.port at'.token :=
  renderLoose fits.some' fits.host fits.port fits.token

theorem placeShown (fits : at'.Fits) : Visible at'.text ∧ at'.text.head? ≠ some dash := by
  obtain ⟨l,fits',text,-⟩ := placeLoose fits
  refine ⟨fun c mem => fitsVisible fits' c (by rw [text]; exact mem),?_⟩
  obtain ⟨c,more,is⟩ := List.exists_cons_of_ne_nil fits.some'
  have front := fits.front
  unfold Place.text AddrText.render
  cases bracketed : at'.bracketed with
  | true =>
    intro first
    exact absurd (Option.some.inj first) (by decide)
  | false =>
    have first := front bracketed
    rw [is] at first ⊢
    exact first

theorem placeParses (fits : at'.Fits) : ∃ parsed, parseAddr at'.text = some parsed ∧
    parsed.addr.map (textAt parsed.b) = some at'.addr ∧ parsed.port.map (textAt parsed.b) = at'.port ∧
    parsed.token.map (textAt parsed.b) = at'.token := by
  obtain ⟨l,fits',text,finds⟩ := placeLoose fits
  have visible : ∀ c ∈ l.text ++ [], c ≠ 0 := by
    rw [List.append_nil]
    exact fitsVisible fits'
  have found : CursorScan.found (AddrScanner.addrRun true (l.text ++ [])) = some (l.finds true) :=
    looseFound fits' (.inl rfl) visible
  rw [List.append_nil] at found visible
  rw [← AddrScanner.addrFinds visible true,finds,text] at found
  cases parsed : parseAddr at'.text with
  | none =>
    rw [parsed] at found
    contradiction
  | some q =>
    rw [parsed] at found
    have each := Option.some.inj found
    exact ⟨q,rfl,congrFun each .addr,congrFun each .port,congrFun each .token⟩

theorem placeServer (fits : at'.Fits) : ∃ parsed, parseAddr at'.text = some parsed ∧
    setServer configNew parsed = at'.configure .none ∧
    parseServer configNew (some at'.text) = (0,{ at'.configure .server with token := none }) := by
  obtain ⟨parsed,parses,addr,port,token⟩ := placeParses fits
  refine ⟨parsed,parses,?_⟩
  cases given : parsed.port with
  | none =>
    rw [given] at port
    have port' : at'.port = none := port.symm
    constructor
    · simp only [setServer,given,addr,token,Place.configure,port']
      rfl
    · simp only [parseServer,parses,given,addr,Place.configure,port']
      rfl
  | some p =>
    rw [given] at port
    have port' : at'.port = some (textAt parsed.b p) := port.symm
    constructor
    · simp only [setServer,given,addr,token,Place.configure,port']
      rfl
    · simp only [parseServer,parses,given,addr,Place.configure,port']
      rfl

theorem listenShown {l : Listen} (fits : l.Fits) : Visible l.text ∧ l.text.head? ≠ some dash := by
  unfold Listen.text
  cases address : l.address with
  | none =>
    refine ⟨digitsVisible fits.port.digits,fun first => ?_⟩
    have digit := fits.port.digits dash (List.mem_of_mem_head? first)
    exact absurd digit (by decide)
  | some a => exact placeShown (fits.address a address)

theorem fieldsFew (m : Mapping) : m.fields ≠ [] ∧ m.fields.length ≤ 4 := by
  unfold Mapping.fields Mapping.front
  rcases m.listen with _ | ⟨_ | address,port⟩ <;> simp

theorem operandsFit {role : Role} (fits : role.Fits N) :
    ∀ t ∈ role.operands, Visible t ∧ t.head? ≠ some dash := by
  intro t mem
  cases role with
  | server tokens at' =>
    obtain ⟨text,is⟩ := Option.mem_toList.mp mem |> Option.map_eq_some_iff.mp
    rw [← is.2]
    exact placeShown (fits.2 text is.1).1
  | forwarderTerm user at' =>
    rw [List.mem_singleton.mp mem]
    exact placeShown fits.2
  | forwarderPort list at' =>
    rw [List.mem_singleton.mp mem]
    exact placeShown fits.2
  | forwarderSock at' =>
    rw [List.mem_singleton.mp mem]
    exact placeShown fits
  | connectorTerm at' =>
    rw [List.mem_singleton.mp mem]
    exact placeShown fits.1
  | connectorPort m at' =>
    rcases List.mem_pair.mp mem with rfl | rfl
    · exact ⟨joinedVisible (fieldsFew m).1 (fieldsFew m).2 fits.1.fields,fits.1.front⟩
    · exact placeShown fits.2.1
  | connectorSock l at' =>
    rcases List.mem_pair.mp mem with rfl | rfl
    · exact listenShown fits.1
    · exact placeShown fits.2.1

theorem numeralNumber {t : Text} (numeral : Numeral t) : uint32 (atoi t) = number t := by
  have small := numeral.small
  rw [PortNumbers.numeralAtoi numeral,uint32,number]
  congr 1
  omega

theorem mappingStores {m : Mapping} (fits : m.Fits) (config : Config) :
    parseSetAddrPair config m.text = (0,{ config with
      localAddress := match m.listen with
        | some (some address,_) => some address.text
        | _ => config.localAddress,
      localPort := match m.listen with
        | some (_,port) => number port.text
        | none => config.localPort,
      remoteAddress := some m.remote.text,
      remotePort := number m.remotePort.text }) := by
  rw [Mapping.text,joinedStores (fieldsFew m).1 (fieldsFew m).2 fits.fields,← numeralNumber fits.remotePort]
  obtain ⟨listen,remote,remotePort⟩ := m
  obtain _ | ⟨_ | address,port⟩ := listen
  · rfl
  · simp only [← numeralNumber (fits.port _ rfl)]
    rfl
  · simp only [← numeralNumber (fits.port _ rfl)]
    rfl

theorem listenStores {l : Listen} (fits : l.Fits) (config : Config) :
    parseSetAddr config l.text = (0,{ config with
      localAddress := match l.address with
        | some a => some a.2
        | none => config.localAddress,
      localPort := number l.port }) := by
  rw [← numeralNumber fits.port]
  unfold Listen.text
  cases address : l.address with
  | none =>
    have bare : colon ∉ l.port := fun mem => absurd (fits.port.digits colon mem) (by decide)
    simp only [parseSetAddr,if_pos bare]
  | some a =>
    obtain ⟨parsed,parses,addr,port,-⟩ := placeParses (fits.address a address)
    have ported : colon ∈ (l.place a).text := by
      simp [Place.text,Listen.place,AddrText.render,portText]
    obtain ⟨i,is,text⟩ := Option.map_eq_some_iff.mp addr
    obtain ⟨j,is',text'⟩ := Option.map_eq_some_iff.mp port
    obtain ⟨b,pa,pp,pt⟩ := parsed
    simp only at is is' text text'
    subst is is'
    simp only [parseSetAddr,if_neg (not_not.mpr ported),parses,text,text']
    rfl

theorem roleParses {role : Role} (fits : role.Fits N) :
    (if role.options.s then parseServer configNew role.operands[0]?
      else parseClient N order configNew role.options.f role.options.p role.options.x
          role.operands[0]? role.operands[1]?
        role.options.w role.options.b role.options.u) = (0,role.configure N order) := by
  cases role with
  | server tokens at' =>
    cases at' with
    | none => rfl
    | some at' =>
      obtain ⟨fits',tokenless⟩ := fits.2 at' rfl
      obtain ⟨parsed,-,-,serves⟩ := placeServer fits'
      have same : { at'.configure .server with token := none } = at'.configure .server := by
        rw [← tokenless]
        rfl
      exact serves.trans (by rw [same]; rfl)
  | forwarderTerm user at' =>
    obtain ⟨parsed,parses,server,-⟩ := placeServer fits.2
    simp [Role.options,Role.operands,parseClient,parses,server]
    rfl
  | forwarderPort list at' =>
    obtain ⟨parsed,parses,server,-⟩ := placeServer fits.2
    cases list with
    | none =>
      simp [Role.options,Role.operands,parseClient,parses,server,parsePortForwarder]
      rfl
    | some l =>
      obtain ⟨white,es⟩ := l
      have literals := (fits.1 _ rfl).2
      cases white with
      | true =>
        simp [Role.options,Role.operands,parseClient,parses,server,parsePortForwarder,parseLiterals literals]
        rfl
      | false =>
        simp [Role.options,Role.operands,parseClient,parses,server,parsePortForwarder,parseLiterals literals]
        rfl
  | forwarderSock at' =>
    obtain ⟨parsed,parses,server,-⟩ := placeServer fits
    simp [Role.options,Role.operands,parseClient,parses,server]
    rfl
  | connectorTerm at' =>
    obtain ⟨parsed,parses,server,-⟩ := placeServer fits.1
    have token : (at'.configure .none).token ≠ none := fits.2
    simp [Role.options,Role.operands,parseClient,parses,server,token]
    rfl
  | connectorPort m at' =>
    obtain ⟨parsed,parses,server,-⟩ := placeServer fits.2.1
    have token : (at'.configure .none).token ≠ none := fits.2.2
    simp [Role.options,Role.operands,parseClient,parses,server,token,mappingStores fits.1]
    rfl
  | connectorSock l at' =>
    obtain ⟨parsed,parses,server,-⟩ := placeServer fits.2.1
    have token : (at'.configure .none).token ≠ none := fits.2.2
    simp [Role.options,Role.operands,parseClient,parses,server,token,listenStores fits.1]
    rfl

end operands

section lines
variable {files : Text → Option Bytes} {N : InetPton} {order : ByteOrder} {line : Line} {chunks : List Chunk}

theorem arrangedGood (fits : line.Fits files N) (arranged : Arranged line chunks) :
    ∀ chunk ∈ chunks, chunk.Good := by
  intro chunk mem
  have given : ∀ r ∈ chunk.items, ItemFits r := fun r inside =>
    itemsFit fits r (arranged.items.mem_iff.mp (List.mem_flatMap.mpr ⟨chunk,mem,inside⟩))
  have shaped := arranged.shaped chunk mem
  cases chunk with
  | operand t =>
    refine operandsFit fits.role t ?_
    rw [← arranged.operands]
    exact List.mem_flatMap.mpr ⟨_,mem,List.mem_singleton_self t⟩
  | options flags last =>
    refine ⟨shaped.1,fun c inside => ?_,?_⟩
    · obtain ⟨visible,dashless,flagged⟩ := given (c,none)
          (List.mem_append_left _ (List.mem_map.mpr ⟨c,inside,rfl⟩))
      exact ⟨flagged,visible,dashless⟩
    · rintro ⟨c,arg,attached⟩ is
      obtain ⟨visible,dashless,taker,visible'⟩ := given (c,some arg) (List.mem_append_right _ (by
        rw [is]
        exact List.mem_singleton_self _))
      exact ⟨taker,visible,dashless,visible',shaped.2 _ is⟩

theorem joinMap (o : Option Text) : (o.map some).getD none = o := by
  cases o <;> rfl

theorem flagSome (b : Bool) : (flag b).isSome = b := by
  cases b <;> rfl

theorem lineInterprets (fits : line.Fits files N) : interpret fshConfigNew (seen line.items) =
    ({ fshConfigNew with
        ipType := if line.ip = some .four then 4 else if line.ip = some .six then 6 else 0,
        timeout := (line.timeout.map number).getD 120,
        tokensFile := line.role.options.a,
        tcpCc := line.cc },
      ⟨line.verbose,line.role.options.s,line.role.options.f,line.role.options.p,line.role.options.x,line.ugly,
        line.key,line.log,line.role.options.u,line.role.options.w,line.role.options.b⟩) := by
  have each : ∀ e ∈ line.table, seen line.items e.1 = e.2 := fun e mem => seenEntry (tableDistinct line) mem
  generalize seen line.items = given at each ⊢
  simp only [Line.table,List.forall_mem_cons] at each
  obtain ⟨four,six,k,t,l,c,v,ugly,s,a,f,u,p,x,w,b,-⟩ := each
  have timed : ((line.timeout.map some).map (fun a => UInt32.ofNat (strtoul10 (a.getD [])))).getD fshConfigNew.timeout =
      (line.timeout.map number).getD 120 := by
    cases timeout : line.timeout with
    | none => rfl
    | some t =>
      obtain ⟨-,digits,small⟩ := fits.timeout t timeout
      simp only [Option.map_some,Option.getD_some,strtoulDigits digits small]
      rfl
  have default' : fshConfigNew.tokensFile = none ∧ fshConfigNew.tcpCc = none ∧
      fshConfigNew.ipType = 0 := ⟨rfl,rfl,rfl⟩
  unfold interpret
  rw [four,six,k,t,l,c,v,ugly,s,a,f,u,p,x,w,b,timed]
  simp only [joinMap,flagSome,default',decide_eq_true_eq]

theorem finishLine (fits : line.Fits files N) : finish files N order (interpret fshConfigNew (seen line.items))
    line.role.operands[0]? line.role.operands[1]? = (0,line.expected files N order) := by
  have parses := @roleParses N order line.role fits.role
  have same : fshConfigNew.toConfig = configNew := rfl
  rw [lineInterprets fits]
  unfold finish
  simp only [same,parses]
  cases key : line.key with
  | none => simp [Line.expected,key,fshConfigNew]
  | some path =>
    obtain ⟨-,bytes,reads,long⟩ := fits.key path key
    have whole : (bytes.take 20).length = 20 := by simpa using long
    simp [Line.expected,key,parseKey,reads,setKey,long]

theorem freshInterprets : interpret fshConfigNew (fun _ => none) = (fshConfigNew,locals) := rfl

theorem chunksParse (fits : line.Fits files N) (arranged : Arranged line chunks) :
    parseArgs files N order fshConfigNew (chunks.flatMap Chunk.words) =
      let (res,st) := parseOptions (fshConfigNew,locals) ((chunks.flatMap Chunk.items).map shown)
      if res < 0 then (-1,st.1) else finish files N order st line.role.operands[0]? line.role.operands[1]? := by
  obtain ⟨rs,same,scans⟩ := chunksScan (arrangedGood fits arranged)
  rw [parseArgs,scans]
  simp only [same,arranged.operands]

theorem plainAccepted (fits : line.Fits files N) (arranged : Arranged line chunks) (plain : line.ugly = false) :
    parseArgs files N order fshConfigNew (chunks.flatMap Chunk.words) = (0,line.expected files N order) := by
  have perm := arranged.items
  obtain ⟨shows,known⟩ := itemsShown plain
  have shows' : (chunks.flatMap Chunk.items).map shown = chunks.flatMap Chunk.items := by
    exact (List.map_congr_left (fun r mem => shows r (perm.mem_iff.mp mem))).trans (List.map_id _)
  have distinct : ((chunks.flatMap Chunk.items).map Prod.fst).Nodup :=
    (perm.map Prod.fst).nodup_iff.mpr (itemsDistinct line)
  have parses := @optionsInterpret fshConfigNew (chunks.flatMap Chunk.items) (fun _ => none)
    (fun r mem => known r (perm.mem_iff.mp mem)) (by
      rintro ⟨⟨c,a⟩,six,rfl⟩
      refine ⟨rfl,?_⟩
      rintro ⟨c',a'⟩ four rfl
      exact ipOnce (perm.mem_iff.mp six) (perm.mem_iff.mp four))
  rw [chunksParse fits arranged,shows',← freshInterprets,parses]
  have gathered : gather (fun _ => none) (chunks.flatMap Chunk.items) = seen line.items := seenPerm perm distinct
  rw [gathered]
  exact finishLine fits

theorem uglyRefused (fits : line.Fits files N) (arranged : Arranged line chunks) (ugly : line.ugly = true) :
    (parseArgs files N order fshConfigNew (chunks.flatMap Chunk.words)).1 = -1 := by
  have unknown : (question,none) ∈ (chunks.flatMap Chunk.items).map shown :=
    (arranged.items.map shown).mem_iff.mpr (uglyShown ugly)
  have refused := @optionsUnknown _ (fshConfigNew,locals) unknown
  rw [chunksParse fits arranged]
  simp only [refused]
  rfl

theorem linesAccepted (files : Text → Option Bytes) (N : InetPton) (order : ByteOrder)
    (line : Line) (fits : line.Fits files N)
    (chunks : List Chunk) (arranged : Arranged line chunks) :
    parseArgs files N order fshConfigNew (chunks.flatMap Chunk.words) = (0,line.expected files N order) ↔
      line.ugly = false := by
  constructor
  · intro accepted
    cases ugly : line.ugly with
    | false => rfl
    | true =>
      have refused := @uglyRefused files N order line chunks fits arranged ugly
      rw [accepted] at refused
      contradiction
  · exact plainAccepted fits arranged

def hostOnly : Place := ⟨false,[104],none,none⟩

def keyFile : Text → Option Bytes := fun _ => some (List.replicate 20 7)

theorem hostFits : hostOnly.Fits :=
  ⟨by decide,by decide +kernel,by simp [hostOnly],by simp [hostOnly],by decide⟩

theorem linesAcceptedClustered : (parseArgs keyFile inetPton .little fshConfigNew
    [[45,118,102],[104],[45,120,107],[47,107]]).1 = 0 := by
  have fits : Line.Fits keyFile inetPton ⟨none,some [47,107],none,none,none,true,false,
      .forwarderSock hostOnly⟩ := by
    refine ⟨?_,by simp,by simp,by simp,hostFits⟩
    rintro t ⟨rfl⟩
    exact ⟨by unfold Visible; decide +kernel,_,rfl,by decide⟩
  have arranged : Arranged ⟨none,some [47,107],none,none,none,true,false,.forwarderSock hostOnly⟩
      [.options [118,102] none,.operand [104],.options [120] (some (107,[47,107],false))] := by
    refine ⟨?_,by decide,rfl⟩
    simp only [List.forall_mem_cons]
    exact ⟨⟨.inl (by simp),by simp⟩,trivial,⟨.inl (by simp),by simp⟩,by simp⟩
  exact congrArg Prod.fst ((linesAccepted keyFile inetPton .little _ fits _ arranged).mpr rfl)

/- fsh -U -f -x h -/
theorem uglyUnreachable : ¬ ∀ (files : Text → Option Bytes) (N : InetPton) (order : ByteOrder) (line : Line),
    line.Fits files N → ∀ chunks, Arranged line chunks →
      parseArgs files N order fshConfigNew (chunks.flatMap Chunk.words) = (0,line.expected files N order) := by
  intro always
  have fits : Line.Fits keyFile inetPton ⟨none,none,none,none,none,false,true,.forwarderSock hostOnly⟩ :=
    ⟨by simp,by simp,by simp,by simp,hostFits⟩
  have arranged : Arranged ⟨none,none,none,none,none,false,true,.forwarderSock hostOnly⟩
      [.options [85] none,.options [102] none,.options [120] none,.operand [104]] := by
    refine ⟨?_,by decide,rfl⟩
    simp only [List.forall_mem_cons]
    exact ⟨⟨.inl (by simp),by simp⟩,⟨.inl (by simp),by simp⟩,⟨.inl (by simp),by simp⟩,trivial,by simp⟩
  have refused := @uglyRefused keyFile inetPton .little _ _ fits arranged rfl
  rw [always keyFile inetPton .little _ fits _ arranged] at refused
  contradiction

end lines

end HevFsh.CommandForms
