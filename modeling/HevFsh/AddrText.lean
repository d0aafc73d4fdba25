import HevFsh.AddrScanner
import Mathlib.Algebra.GroupWithZero.Nat

/-! The texts that parse_addr accepts, from the host on: what it makes of each of them,
and which of them are not what their parts would be written as. -/
namespace HevFsh.AddrText
open CText CommandLine CursorScan AddrScanner

def Plain (t : Text) : Prop := ∀ c ∈ t, ¬ Special c ∧ c ≠ 0

def Inner (t : Text) : Prop := ∀ c ∈ t, ¬ Bracket c ∧ c ≠ 0

instance (t : Text) : Decidable (Plain t) := List.decidableBAll _ _
instance (t : Text) : Decidable (Inner t) := List.decidableBAll _ _

def portText (port : Option Text) : Text := (port.map (colon :: ·)).getD []

def tokenText (token : Option Text) : Text := (token.map (slash :: ·)).getD []

/- ADDR[:PORT][/TOKEN], or with ADDR in square brackets. -/
def render (bracketed : Bool) (addr : Text) (port token : Option Text) : Text :=
  (if bracketed then opening :: (addr ++ [closing]) else addr) ++ (portText port ++ tokenText token)

def slashed (ts : List Text) : Text := ts.flatMap (slash :: ·)

/- All that is accepted with the brackets closed: more behind the closing bracket, and
any number of tokens, before the port too. -/
structure Loose where
  bracketed : Bool
  addr : Text
  junk : Text
  before : List Text
  port : Option Text
  after : List Text
  deriving DecidableEq, Repr

def Loose.text (l : Loose) : Text :=
  (if l.bracketed then opening :: (l.addr ++ closing :: l.junk) else l.addr) ++
    (slashed l.before ++ (portText l.port ++ slashed l.after))

structure Loose.Fits (l : Loose) : Prop where
  some' : l.addr ≠ []
  addr : if l.bracketed then Inner l.addr else Plain l.addr
  junk : Plain l.junk
  bare : l.bracketed = false → l.junk = []
  before : ∀ t ∈ l.before, Plain t
  port : ∀ p ∈ l.port, Plain p
  after : ∀ t ∈ l.after, Plain t
  late : l.port = none → l.after = []

def Loose.tokens (l : Loose) : List Text := l.before ++ l.after

def partTexts (wants : Bool) (addr port token : Option Text) : Part → Option Text
  | .addr => addr
  | .port => port
  | .token => if wants then token else none

def Loose.finds (l : Loose) (wants : Bool) : Part → Option Text :=
  partTexts wants (some l.addr) l.port l.tokens.getLast?

def Unclosed (e : Text) : Prop := ∃ inner, e = opening :: inner ∧ ∀ c ∈ inner, ¬ Bracket c

section reading
variable {wants : Bool} {s : Nat} {rest seg : Text} {a p t : Option Slice}

def parts (wants : Bool) (a p t : Option Slice) : Part → Option Slice
  | .addr => a
  | .port => p
  | .token => if wants then t else none

theorem textsParts : texts (parts wants a p t) =
    partTexts wants (a.map Slice.text) (p.map Slice.text) (t.map Slice.text) := by
  funext k
  cases wants <;> cases k <;> rfl

theorem partsNone (wants : Bool) : parts wants none none none = fun _ => none := by
  funext k
  cases wants <;> cases k <;> rfl

theorem partsAddr (x : Slice) : setMark (parts wants a p t) (some .addr) x = parts wants (some x) p t := by
  funext k
  cases k <;> rfl

theorem partsPort (x : Slice) : setMark (parts wants a p t) (some .port) x = parts wants a (some x) t := by
  funext k
  cases k <;> rfl

theorem partsToken (x : Slice) :
    setMark (parts wants a p t) (if wants then some .token else none) x = parts wants a p (some x) := by
  funext k
  cases wants <;> cases k <;> rfl

theorem partsGrown (c : UInt8) : grown c (parts wants a p t) =
    parts wants (a.map (Slice.grow c)) (p.map (Slice.grow c)) (t.map (Slice.grow c)) := by
  funext k
  cases wants <;> cases k <;> rfl

theorem partsClosed : closed (parts wants a p t) =
    parts wants (a.map Slice.close) (p.map Slice.close) (t.map Slice.close) := by
  funext k
  cases wants <;> cases k <;> rfl

def Slice.grows (seg : Text) (x : Slice) : Slice := seg.foldl (fun x c => x.grow c) x

theorem growsLive (seg text : Text) : Slice.grows seg ⟨text,true⟩ = ⟨text ++ seg,true⟩ := by
  induction seg generalizing text with
  | nil => simp [Slice.grows]
  | cons c seg ih =>
    have next := ih (text ++ [c])
    rw [List.append_assoc] at next
    exact next

theorem growsOver (seg text : Text) : Slice.grows seg ⟨text,false⟩ = ⟨text,false⟩ := by
  induction seg with
  | nil => rfl
  | cons c seg ih => exact ih

def partsGrows (seg : Text) (x : Option Slice) : Option Slice := x.map (Slice.grows seg)

theorem growsCons (c : UInt8) (seg : Text) (x : Option Slice) :
    partsGrows (c::seg) x = partsGrows seg (x.map (Slice.grow c)) := by
  cases x <;> rfl

theorem readPlain (plain : Plain seg) (first : s ≠ 0) (fourth : s ≠ 4) :
    read (judgeAddr wants) s (parts wants a p t) (seg ++ rest) =
      read (judgeAddr wants) s (parts wants (partsGrows seg a) (partsGrows seg p) (partsGrows seg t)) rest := by
  induction seg generalizing a p t with
  | nil => cases a <;> cases p <;> cases t <;> rfl
  | cons c seg ih =>
    have here := plain c List.mem_cons_self
    simp only [Special,not_or] at here
    obtain ⟨⟨h₁,h₂,h₃,h₄,h₅⟩,visible⟩ := here
    have later : Plain seg := fun x mem => plain x (List.mem_cons_of_mem c mem)
    have move : judgeAddr wants s c = .pass s none none := by
      simp [judgeAddr,visible,h₁,h₂,h₃,h₄,h₅,first,fourth]
    rw [List.cons_append,CursorScan.read,look,move]
    simp only [setMark,partsGrown,growsCons]
    exact ih later

theorem readInside (inner : Inner seg) :
    read (judgeAddr wants) 5 (parts wants a p t) (seg ++ rest) =
      read (judgeAddr wants) 5 (parts wants (partsGrows seg a) (partsGrows seg p) (partsGrows seg t)) rest := by
  induction seg generalizing a p t with
  | nil => cases a <;> cases p <;> cases t <;> rfl
  | cons c seg ih =>
    have here := inner c List.mem_cons_self
    simp only [CommandLine.Bracket,not_or] at here
    obtain ⟨⟨h₁,h₂,h₃,h₄⟩,visible⟩ := here
    have later : Inner seg := fun x mem => inner x (List.mem_cons_of_mem c mem)
    have move : judgeAddr wants 5 c = .pass 5 none none := by
      by_cases isColon : c = colon
      · rw [isColon]
        rfl
      · simp [judgeAddr,visible,h₁,h₂,h₃,h₄,isColon]
    rw [List.cons_append,CursorScan.read,look,move]
    simp only [setMark,partsGrown,growsCons]
    exact ih later

theorem readEnds (ends : Ends rest) (out : Part → Option Slice) : read (judgeAddr wants) s out rest = some out := by
  rcases ends with rfl | ⟨more,rfl⟩
  · rfl
  · rfl

def Late (s : Nat) : Prop := s = 1 ∨ s = 2 ∨ s = 6 ∨ s = 7

theorem readSlash (late : Late s) : read (judgeAddr wants) s (parts wants a p t) (slash :: rest) =
    read (judgeAddr wants) s (parts wants (a.map Slice.close) (p.map Slice.close) (some .begun)) rest := by
  have move : judgeAddr wants s slash = .cut s (if wants then some .token else none) := by
    rcases late with rfl | rfl | rfl | rfl <;> rfl
  rw [CursorScan.read,look,move]
  simp only [partsClosed,partsToken]

theorem readColon (state : s = 1 ∨ s = 6) : read (judgeAddr wants) s (parts wants a p t) (colon :: rest) =
    read (judgeAddr wants) (s + 1) (parts wants (a.map Slice.close) (some .begun) (t.map Slice.close)) rest := by
  have move : judgeAddr wants s colon = .cut (s + 1) (some .port) := by
    rcases state with rfl | rfl <;> rfl
  rw [CursorScan.read,look,move]
  simp only [partsClosed,partsPort]

theorem closeText (x : Option Slice) : (x.map Slice.close).map Slice.text = x.map Slice.text := by
  cases x <;> rfl

theorem closeGrows (seg : Text) (x : Option Slice) : partsGrows seg (x.map Slice.close) = x.map Slice.close := by
  cases x with
  | none => rfl
  | some x => exact congrArg some (growsOver seg x.text)

theorem begunGrows (seg : Text) : partsGrows seg (some .begun) = some ⟨seg,true⟩ := by
  have live := growsLive seg []
  rw [List.nil_append] at live
  exact congrArg some live

theorem readSlashed (late : Late s) {ts : List Text} (plain : ∀ t ∈ ts, Plain t) : ∃ a' p' t',
    read (judgeAddr wants) s (parts wants a p t) (slashed ts ++ rest) =
      read (judgeAddr wants) s (parts wants a' p' t') rest ∧
      a'.map Slice.text = a.map Slice.text ∧ p'.map Slice.text = p.map Slice.text ∧
      t'.map Slice.text = ts.getLast?.or (t.map Slice.text) := by
  induction ts generalizing a p t with
  | nil => exact ⟨a,p,t,rfl,rfl,rfl,by cases t <;> rfl⟩
  | cons u ts ih =>
    have first : s ≠ 0 ∧ s ≠ 4 := by rcases late with rfl | rfl | rfl | rfl <;> decide
    have text : slashed (u::ts) ++ rest = slash :: (u ++ (slashed ts ++ rest)) := by simp [slashed]
    obtain ⟨a',p',t',reads,addr,port,token⟩ := @ih (a.map Slice.close) (p.map Slice.close) (some ⟨u,true⟩)
      (fun x mem => plain x (List.mem_cons_of_mem u mem))
    refine ⟨a',p',t',?_,addr.trans (closeText a),port.trans (closeText p),?_⟩
    · rw [text,readSlash late,readPlain (plain u List.mem_cons_self) first.1 first.2,closeGrows,closeGrows,
        begunGrows,reads]
    · rw [token]
      cases ts with
      | nil => simp
      | cons v ts =>
        rw [List.getLast?_cons_cons]
        cases last : (v::ts).getLast? with
        | none => simp at last
        | some w => rfl

theorem readBare {addr : Text} (some' : addr ≠ []) (plain : Plain addr) :
    read (judgeAddr wants) 0 (fun _ => none) (addr ++ rest) =
      read (judgeAddr wants) 1 (parts wants (some ⟨addr,true⟩) none none) rest := by
  obtain ⟨c,addr,rfl⟩ := List.exists_cons_of_ne_nil some'
  have here := plain c List.mem_cons_self
  simp only [Special,not_or] at here
  obtain ⟨⟨h₁,h₂,h₃,h₄,h₅⟩,visible⟩ := here
  have later : Plain addr := fun x mem => plain x (List.mem_cons_of_mem c mem)
  have move : judgeAddr wants 0 c = .pass 1 (some .addr) none := by
    simp [judgeAddr,visible,h₁,h₂,h₃,h₄,h₅]
  have begins : partsGrows addr ((some Slice.begun).map (Slice.grow c)) = some ⟨c::addr,true⟩ := by
    rw [← growsCons,begunGrows]
  rw [List.cons_append,CursorScan.read,look,move]
  simp only [← partsNone wants,partsAddr,partsGrown]
  simp only [setMark]
  rw [readPlain later (by decide) (by decide),begins]
  rfl

theorem readOpened {inner : Text} (some' : inner ≠ []) (plain : Inner inner) :
    read (judgeAddr wants) 0 (fun _ => none) (opening :: (inner ++ rest)) =
      read (judgeAddr wants) 5 (parts wants (some ⟨inner,true⟩) none none) rest := by
  obtain ⟨c,inner,rfl⟩ := List.exists_cons_of_ne_nil some'
  have here := plain c List.mem_cons_self
  simp only [CommandLine.Bracket,not_or] at here
  obtain ⟨⟨h₁,h₂,h₃,h₄⟩,visible⟩ := here
  have later : Inner inner := fun x mem => plain x (List.mem_cons_of_mem c mem)
  have opens : judgeAddr wants 0 opening = .pass 4 none (some .addr) := rfl
  have move : look (judgeAddr wants) 4 c = .pass 5 none none := by
    by_cases isColon : c = colon
    · rw [isColon]
      rfl
    · have plain' : ¬ Special c := by simp [Special,h₁,h₂,h₃,h₄,isColon]
      rw [addrLook wants 4 visible,if_pos ⟨rfl,plain'⟩]
  have begins : partsGrows inner ((some Slice.begun).map (Slice.grow c)) = some ⟨c::inner,true⟩ := by
    rw [← growsCons,begunGrows]
  rw [CursorScan.read,look,opens]
  simp only [← partsNone wants,partsGrown,setMark]
  have marks := @partsAddr wants none none none Slice.begun
  simp only [setMark] at marks
  simp only [Option.map_none,marks]
  rw [List.cons_append,CursorScan.read,move]
  simp only [setMark,partsGrown]
  rw [readInside later,begins]
  rfl

theorem readBracketed {inner junk : Text} (some' : inner ≠ []) (plain : Inner inner) (plain' : Plain junk) :
    read (judgeAddr wants) 0 (fun _ => none) (opening :: (inner ++ closing :: (junk ++ rest))) =
      read (judgeAddr wants) 6 (parts wants (some ⟨inner,false⟩) none none) rest := by
  have closes : judgeAddr wants 5 closing = .cut 6 none := rfl
  rw [readOpened some' plain,CursorScan.read,look,closes]
  simp only [setMark,partsClosed]
  rw [readPlain plain' (by decide) (by decide),closeGrows]
  rfl

theorem readTail (state : s = 1 ∨ s = 6) {before after : List Text} {port : Option Text}
    (plain : ∀ u ∈ before, Plain u)
    (plain' : ∀ x ∈ port, Plain x) (plain'' : ∀ u ∈ after, Plain u)
    (late : port = none → after = []) (ends : Ends rest)
    (x : Slice) : ∃ out, read (judgeAddr wants) s (parts wants (some x) none none)
        (slashed before ++ (portText port ++ (slashed after ++ rest))) = some out ∧
      texts out = partTexts wants (some x.text) port (before ++ after).getLast? := by
  have late' : Late s ∧ Late (s + 1) ∧ s + 1 ≠ 0 ∧ s + 1 ≠ 4 := by
    unfold Late
    omega
  obtain ⟨a,p,t,reads,addr,port',token⟩ := @readSlashed wants s (portText port ++
      (slashed after ++ rest)) (some x) none none
    late'.1 before plain
  rw [reads]
  cases port with
  | none =>
    rw [late rfl]
    refine ⟨_,readEnds ends _,?_⟩
    rw [textsParts,addr,port',token]
    simp
  | some u =>
    have text : portText (some u) ++ (slashed after ++ rest) = colon :: (u ++ (slashed after ++ rest)) := rfl
    obtain ⟨a',p',t',reads',addr',port'',token'⟩ := @readSlashed wants (s + 1) rest
        (a.map Slice.close) (some ⟨u,true⟩)
      (t.map Slice.close) late'.2.1 after plain''
    rw [text,readColon state,readPlain (plain' u rfl) late'.2.2.1 late'.2.2.2,closeGrows,closeGrows,begunGrows,reads']
    refine ⟨_,readEnds ends _,?_⟩
    rw [textsParts,addr',port'',token',closeText,closeText,addr,token]
    simp [List.getLast?_append]

theorem readLoose {l : Loose} (fits : l.Fits) (ends : Ends rest) :
    (read (judgeAddr wants) 0 (fun _ => none) (l.text ++ rest)).map texts = some (l.finds wants) := by
  obtain ⟨some',addr,junk,bare,before,port,after,late⟩ := fits
  cases brackets : l.bracketed with
  | true =>
    rw [if_pos brackets] at addr
    have text : l.text ++ rest = opening :: (l.addr ++ closing :: (l.junk ++
        (slashed l.before ++ (portText l.port ++ (slashed l.after ++ rest))))) := by
      simp [Loose.text,brackets]
    obtain ⟨out,reads,finds⟩ := @readTail wants 6 rest (.inr rfl)
        l.before l.after l.port before port after late ends
      ⟨l.addr,false⟩
    rw [text,readBracketed some' addr junk,reads]
    exact congrArg some finds
  | false =>
    rw [if_neg (by simp [brackets])] at addr
    have text : l.text ++ rest = l.addr ++ (slashed l.before ++ (portText l.port ++ (slashed l.after ++ rest))) := by
      simp [Loose.text,brackets]
    obtain ⟨out,reads,finds⟩ := @readTail wants 1 rest (.inl rfl)
        l.before l.after l.port before port after late ends
      ⟨l.addr,true⟩
    rw [text,readBare some' addr,reads]
    exact congrArg some finds

theorem looseFound {l : Loose} (fits : l.Fits) (ends : Ends rest) (visible : ∀ c ∈ l.text ++ rest, c ≠ 0) :
    found (addrRun wants (l.text ++ rest)) = some (l.finds wants) := by
  rw [addrRun,runFound (addrLawful wants) visible trivial (Nat.le_refl _)]
  exact readLoose fits ends

end reading

section shapes
variable {e rest seg done : Text} {s : Nat} {p : Option Nat × Option Nat × Option Nat}

theorem splitSlashes {e : Text} (calm : ∀ c ∈ e, c ≠ comma ∧ c ≠ colon ∧
    c ≠ opening ∧ c ≠ closing ∧ c ≠ 0) :
    ∃ u ts, e = u ++ slashed ts ∧ Plain u ∧ ∀ t ∈ ts, Plain t := by
  induction e with
  | nil => exact ⟨[],[],rfl,by simp [Plain],by simp⟩
  | cons c e ih =>
    obtain ⟨u,ts,is,plain,plain'⟩ := ih (fun x mem => calm x (List.mem_cons_of_mem c mem))
    obtain ⟨h₁,h₂,h₃,h₄,visible⟩ := calm c List.mem_cons_self
    by_cases isSlash : c = slash
    · refine ⟨[],u::ts,by rw [is,isSlash]; simp [slashed],by simp [Plain],?_⟩
      intro t mem
      rcases List.mem_cons.mp mem with rfl | later
      · exact plain
      · exact plain' t later
    · refine ⟨c::u,ts,by rw [is]; rfl,?_,plain'⟩
      intro d mem
      rcases List.mem_cons.mp mem with rfl | later
      · exact ⟨by simp [Special,h₁,h₂,h₃,h₄,isSlash],visible⟩
      · exact plain d later

theorem loopStays (late : Late s) (calm : ∀ c ∈ seg, c ≠ comma ∧ c ≠ colon ∧
    c ≠ opening ∧ c ≠ closing) :
    ∃ done' p', parseAddrLoop done s p (seg ++ rest) = parseAddrLoop done' s p' rest := by
  induction seg generalizing done p with
  | nil => exact ⟨done,p,rfl⟩
  | cons c seg ih =>
    obtain ⟨h₁,h₂,h₃,h₄⟩ := calm c List.mem_cons_self
    have later := fun x mem => calm x (List.mem_cons_of_mem c mem)
    have states : ¬ (s ≠ 1 ∧ s ≠ 2 ∧ s ≠ 6 ∧ s ≠ 7) ∧ s ≠ 0 ∧ s ≠ 4 := by
      unfold Late at late
      omega
    rw [List.cons_append,parseAddrLoop,if_neg h₁,if_neg h₂]
    by_cases isSlash : c = slash
    · rw [if_pos isSlash,if_neg states.1]
      exact ih later
    · rw [if_neg isSlash,if_neg h₃,if_neg h₄,if_neg states.2.1,if_neg states.2.2]
      exact ih later

theorem noBracket (late : Late s) (whole : comma ∉ e) (accepted : parseAddrLoop done s p (e ++ rest) ≠ none) :
    ∀ c ∈ e, c ≠ opening ∧ c ≠ closing := by
  intro c mem
  refine not_or.mp (fun bracket => accepted ?_)
  obtain ⟨l,r,rfl⟩ := List.append_of_mem mem
  rw [List.mem_append,not_or] at whole
  rw [List.append_assoc,List.cons_append]
  exact loopNoBracket bracket whole.1 late

theorem noColon (late : s = 2 ∨ s = 7) (whole : comma ∉ e)
    (accepted : parseAddrLoop done s p (e ++ rest) ≠ none) :
    ∀ c ∈ e, c ≠ colon := by
  rintro c mem rfl
  refine accepted ?_
  obtain ⟨l,r,rfl⟩ := List.append_of_mem mem
  rw [List.mem_append,not_or] at whole
  rw [List.append_assoc,List.cons_append]
  exact loopNoColon whole.1 late

theorem notComma (whole : comma ∉ e) : ∀ c ∈ e, c ≠ comma := fun _ mem same => whole (same ▸ mem)

theorem tailShape (state : s = 1 ∨ s = 6) (whole : comma ∉ e) (visible : ∀ c ∈ e, c ≠ 0)
    (accepted : parseAddrLoop done s p (e ++ rest) ≠ none) : ∃ u before port after,
      e = u ++ (slashed before ++ (portText port ++ slashed after)) ∧ Plain u ∧ (∀ t ∈ before, Plain t) ∧
      (∀ x ∈ port, Plain x) ∧ (∀ t ∈ after, Plain t) ∧ (port = none → after = []) := by
  have late : Late s ∧ (s + 1 = 2 ∨ s + 1 = 7) ∧ Late (s + 1) := by
    unfold Late
    omega
  have brackets := noBracket late.1 whole accepted
  by_cases ported : ∃ c ∈ e, c = colon
  · obtain ⟨l,x,r,rfl,rfl,first⟩ := firstOf ported
    simp only [List.mem_append,List.mem_cons,not_or] at whole
    obtain ⟨u,before,is,plain,plain'⟩ := @splitSlashes l (fun c mem =>
      ⟨notComma whole.1 c mem,first c mem,(brackets c (by simp [mem])).1,(brackets c (by simp [mem])).2,
        visible c (by simp [mem])⟩)
    obtain ⟨done',p',stays⟩ := @loopStays (colon :: r ++ rest) l done s p late.1 (fun c mem =>
      ⟨notComma whole.1 c mem,first c mem,(brackets c (by simp [mem])).1,(brackets c (by simp [mem])).2⟩)
    rw [List.append_assoc,stays,List.cons_append,loopColon state] at accepted
    have once := noColon late.2.1 whole.2.2 accepted
    obtain ⟨port,after,is',plain'',plain₃⟩ := @splitSlashes r (fun c mem =>
      ⟨notComma whole.2.2 c mem,once c mem,(brackets c (by simp [mem])).1,(brackets c (by simp [mem])).2,
        visible c (by simp [mem])⟩)
    refine ⟨u,before,some port,after,?_,plain,plain',?_,plain₃,by simp⟩
    · rw [is,is']
      simp [portText]
    · rintro x ⟨rfl⟩
      exact plain''
  · obtain ⟨u,before,is,plain,plain'⟩ := @splitSlashes e (fun c mem =>
      ⟨notComma whole c mem,fun same => ported ⟨c,mem,same⟩,(brackets c mem).1,
          (brackets c mem).2,visible c mem⟩)
    exact ⟨u,before,none,[],by rw [is]; simp [portText,slashed],plain,plain',by simp,by simp,fun _ => rfl⟩

theorem bracketShape (whole : comma ∉ e) (visible : ∀ c ∈ e, c ≠ 0)
    (accepted : parseAddr (opening :: (e ++ rest)) ≠ none) :
    (∃ l : Loose, l.Fits ∧ opening :: e = l.text) ∨ Unclosed (opening :: e) := by
  by_cases closes : ∃ c ∈ e, Bracket c
  · obtain ⟨inner,x,r,rfl,bracket,plain⟩ := firstOf closes
    simp only [List.mem_append,List.mem_cons,not_or] at whole
    have inner' : Inner inner := fun c mem => ⟨plain c mem,visible c (by simp [mem])⟩
    cases inner with
    | nil =>
      rw [List.nil_append,loopOpens,List.cons_append,parseAddrLoop] at accepted
      rcases bracket with rfl | rfl | rfl | rfl
      · exact absurd rfl whole.2.1
      · exact absurd rfl accepted
      · exact absurd rfl accepted
      · exact absurd rfl accepted
    | cons d inner =>
      rw [List.append_assoc,loopOpened (by simp) plain,List.cons_append] at accepted
      rcases bracket with rfl | rfl | rfl | rfl
      · exact absurd rfl whole.2.1
      · exact absurd rfl accepted
      · exact absurd rfl accepted
      · rw [loopCloses] at accepted
        obtain ⟨junk,before,port,after,is,fits,fits',fits'',fits₃,late⟩ := tailShape (.inr rfl) whole.2.2
          (fun c mem => visible c (by simp [mem])) accepted
        exact .inl ⟨⟨true,d::inner,junk,before,port,after⟩,
            ⟨by simp,inner',fits,by simp,fits',fits'',fits₃,late⟩,
          by simp [Loose.text,is]⟩
  · exact .inr ⟨e,rfl,fun c mem bracket => closes ⟨c,mem,bracket⟩⟩

theorem acceptedShape (some' : e ≠ []) (whole : comma ∉ e) (visible : ∀ c ∈ e, c ≠ 0)
    (accepted : parseAddr (e ++ rest) ≠ none) : (∃ l : Loose, l.Fits ∧ e = l.text) ∨ Unclosed e := by
  obtain ⟨c,e,rfl⟩ := List.exists_cons_of_ne_nil some'
  have here : c ≠ comma := notComma whole c List.mem_cons_self
  rw [List.mem_cons,not_or] at whole
  have later : ∀ x ∈ e, x ≠ 0 := fun x mem => visible x (List.mem_cons_of_mem c mem)
  by_cases opens : c = opening
  · rw [opens] at accepted ⊢
    exact bracketShape whole.2 later accepted
  · rw [List.cons_append,parseAddr,parseAddrLoop,if_neg here] at accepted
    by_cases isColon : c = colon
    · rw [if_pos isColon] at accepted
      exact absurd rfl accepted
    by_cases isSlash : c = slash
    · rw [if_neg isColon,if_pos isSlash] at accepted
      exact absurd rfl accepted
    by_cases isClosing : c = closing
    · rw [if_neg isColon,if_neg isSlash,if_neg opens,if_pos isClosing] at accepted
      exact absurd rfl accepted
    rw [if_neg isColon,if_neg isSlash,if_neg opens,if_neg isClosing,if_pos rfl] at accepted
    obtain ⟨u,before,port,after,is,plain,fits',fits'',fits₃,late⟩ := tailShape (.inl rfl) whole.2 later accepted
    have plain' : Plain (c::u) := by
      intro d mem
      rcases List.mem_cons.mp mem with rfl | inside
      · exact ⟨by simp [Special,here,isColon,isSlash,opens,isClosing],visible d List.mem_cons_self⟩
      · exact plain d inside
    exact .inl ⟨⟨false,c::u,[],before,port,after⟩,
        ⟨by simp,plain',by simp [Plain],fun _ => rfl,fits',fits'',fits₃,late⟩,
      by simp [Loose.text,is]⟩

end shapes

section soundness
variable {wants : Bool} {str e rest : Text}

def element (str : Text) : Text := str.takeWhile (fun c => c ≠ comma)

theorem elementSplit (str : Text) : ∃ rest, str = element str ++ rest ∧ Ends rest ∧ comma ∉ element str := by
  refine ⟨str.dropWhile (fun c => c ≠ comma),(List.takeWhile_append_dropWhile).symm,?_,?_⟩
  · cases rest : str.dropWhile (fun c => c ≠ comma) with
    | nil => exact .inl rfl
    | cons c more =>
      have stops := @List.head_dropWhile_not _ (fun c : UInt8 => decide (c ≠ comma)) str (by rw [rest]; simp)
      simp only [rest,List.head_cons] at stops
      exact .inr ⟨more,by simpa using stops⟩
  · intro mem
    have here := List.mem_takeWhile_imp mem
    simp at here

theorem slashedVisible {ts : List Text} (plain : ∀ t ∈ ts, Plain t) : ∀ c ∈ slashed ts, c ≠ 0 := by
  intro c mem
  obtain ⟨t,inside,here⟩ := List.mem_flatMap.mp mem
  rcases List.mem_cons.mp here with rfl | later
  · decide
  · exact (plain t inside c later).2

theorem fitsVisible {l : Loose} (fits : l.Fits) : ∀ c ∈ l.text, c ≠ 0 := by
  have host : ∀ c ∈ l.addr, c ≠ 0 := by
    have addr := fits.addr
    split at addr
    · exact fun c mem => (addr c mem).2
    · exact fun c mem => (addr c mem).2
  have ported : ∀ c ∈ portText l.port, c ≠ 0 := by
    intro c mem
    cases port : l.port with
    | none => simp [portText,port] at mem
    | some p =>
      rw [port] at mem
      rcases List.mem_cons.mp mem with rfl | later
      · decide
      · exact (fits.port p port c later).2
  intro c mem
  simp only [Loose.text,List.mem_append] at mem
  rcases mem with front | first | port | second
  · split at front
    · simp only [List.mem_cons,List.mem_append] at front
      rcases front with rfl | inside | rfl | junk
      · decide
      · exact host c inside
      · decide
      · exact (fits.junk c junk).2
    · exact host c front
  · exact slashedVisible fits.before c first
  · exact ported c port
  · exact slashedVisible fits.after c second

theorem renderLoose {bracketed : Bool} {addr : Text} {port token : Option Text} (some' : addr ≠ [])
    (host : if bracketed then Inner addr else Plain addr) (port' : ∀ x ∈ port, Plain x)
    (token' : ∀ x ∈ token, Plain x) :
    ∃ l : Loose, l.Fits ∧ l.text = render bracketed addr port token ∧
      l.finds wants = partTexts wants (some addr) port token := by
  have plain : ∀ t ∈ token.toList, Plain t := fun t mem => token' t (by simpa using mem)
  cases port with
  | none =>
    refine ⟨⟨bracketed,addr,[],token.toList,none,[]⟩,
        ⟨some',host,by simp [Plain],fun _ => rfl,plain,by simp,by simp,
      fun _ => rfl⟩,?_,?_⟩
    · cases token <;> cases bracketed <;> simp [Loose.text,render,portText,tokenText,slashed]
    · cases token <;> simp [Loose.finds,Loose.tokens]
  | some p =>
    refine ⟨⟨bracketed,addr,[],[],some p,token.toList⟩,
        ⟨some',host,by simp [Plain],fun _ => rfl,by simp,port',plain,
      by simp⟩,?_,?_⟩
    · cases token <;> cases bracketed <;> simp [Loose.text,render,portText,tokenText,slashed]
    · cases token <;> simp [Loose.finds,Loose.tokens]

theorem addrComplete (wants bracketed : Bool) (addr : Text) (port token : Option Text)
    (rest : Text) (some' : addr ≠ [])
    (host : if bracketed then Inner addr else Plain addr) (port' : ∀ x ∈ port, Plain x)
    (token' : ∀ x ∈ token, Plain x)
    (ends : Ends rest) (visible : ∀ c ∈ rest, c ≠ 0) :
    ∃ m, addrRun wants (render bracketed addr port token ++ rest) = .finished m ∧ pointed m .addr = some addr ∧
      pointed m .port = port ∧ pointed m .token = if wants then token else none := by
  obtain ⟨l,fits,text,finds⟩ := @renderLoose wants bracketed addr port token some' host port' token'
  rw [← text]
  have visible' : ∀ c ∈ l.text ++ rest, c ≠ 0 := by
    intro c mem
    rcases List.mem_append.mp mem with front | back
    · exact fitsVisible fits c front
    · exact visible c back
  obtain ⟨m,ends',points⟩ := foundSome (@looseFound wants rest l fits ends visible')
  refine ⟨m,ends',?_⟩
  rw [points,finds]
  exact ⟨rfl,rfl,rfl⟩

theorem addrCompleteLiteral : ∃ m, addrRun true (render true [58,58,49] (some [50,50])
    (some [97,98]) ++ [44,120]) = .finished m ∧
    pointed m .addr = some [58,58,49] ∧ pointed m .port = some [50,50] ∧ pointed m .token = some [97,98] :=
  addrComplete true true [58,58,49] (some [50,50]) (some [97,98]) [44,120] (by decide) (by decide +kernel)
    (by rintro x ⟨rfl⟩; decide +kernel) (by rintro x ⟨rfl⟩; decide +kernel) (.inr ⟨[120],rfl⟩) (by simp)

def Sound (wants : Bool) (str : Text) : Prop :=
  ∀ m, addrRun wants str = .finished m → ∀ addr, pointed m .addr = some addr →
    ∃ bracketed, element str = render bracketed addr (pointed m .port) (pointed m .token)

def Flawed (wants : Bool) (e : Text) : Prop :=
  Unclosed e ∨ ∃ l : Loose, l.Fits ∧ e = l.text ∧
    (l.junk ≠ [] ∨ (l.port ≠ none ∧ l.before ≠ []) ∨ (if wants then 1 else 0) < l.tokens.length)

theorem unclosedFound {inner : Text} (open' : ∀ c ∈ inner, ¬ Bracket c) (ends : Ends rest)
    (visible : ∀ c ∈ opening :: (inner ++ rest), c ≠ 0) :
    found (addrRun wants (opening :: (inner ++ rest))) = some (partTexts wants (some inner) none none) := by
  rw [addrRun,runFound (addrLawful wants) visible trivial (Nat.le_refl _)]
  cases inner with
  | nil =>
    have opens : judgeAddr wants 0 opening = .pass 4 none (some .addr) := rfl
    rw [List.nil_append,CursorScan.read,look,opens]
    simp only [← partsNone wants,partsGrown,setMark]
    have marks := @partsAddr wants none none none Slice.begun
    simp only [setMark] at marks
    simp only [Option.map_none,marks]
    rw [readEnds ends,Option.map_some,textsParts]
    rfl
  | cons c inner =>
    have inner' : Inner (c::inner) := fun x mem => ⟨open' x mem,
        visible x (List.mem_cons_of_mem _ (List.mem_append_left _ mem))⟩
    rw [readOpened (by simp) inner',readEnds ends,Option.map_some,textsParts]
    rfl

theorem slashedLength (ts : List Text) : (slashed ts).length = (ts.map (fun t => t.length + 1)).sum := by
  induction ts with
  | nil => rfl
  | cons t ts ih =>
    have text : slashed (t::ts) = slash :: (t ++ slashed ts) := rfl
    rw [text,List.length_cons,List.length_append,ih,List.map_cons,List.sum_cons]
    omega

theorem looseLength (l : Loose) (bare : l.bracketed = false → l.junk = []) : l.text.length =
    (render l.bracketed l.addr l.port none).length + l.junk.length + (l.tokens.map (fun t => t.length + 1)).sum := by
  have all : (slashed l.before).length + (slashed l.after).length = (l.tokens.map (fun t => t.length + 1)).sum := by
    rw [Loose.tokens,List.map_append,List.sum_append,slashedLength,slashedLength]
  have none' : tokenText none = [] := rfl
  cases brackets : l.bracketed with
  | true =>
    simp only [Loose.text,render,brackets,none',if_true,List.length_append,List.length_cons,List.length_nil]
    omega
  | false =>
    have empty := bare brackets
    simp only [Loose.text,render,brackets,none',empty,Bool.false_eq_true,if_false,List.length_append,List.length_nil]
    omega

theorem renderLength (bracketed : Bool) (addr : Text) (port token : Option Text) :
    (render bracketed addr port token).length = (render bracketed addr port none).length +
      (tokenText token).length := by
  cases bracketed <;> simp [render,tokenText] <;> omega

theorem sameBrackets {l : Loose} (fits : l.Fits) {bracketed : Bool} {port token : Option Text}
    (same : l.text = render bracketed l.addr port token) : bracketed = l.bracketed := by
  obtain ⟨c,more,is⟩ := List.exists_cons_of_ne_nil fits.some'
  have other : c ≠ opening := by
    have addr := fits.addr
    rw [is] at addr
    rintro rfl
    split at addr
    · exact (addr opening List.mem_cons_self).1 (by simp [CommandLine.Bracket])
    · exact (addr opening List.mem_cons_self).1 (by simp [Special])
  cases bracketed with
  | true =>
    cases brackets : l.bracketed with
    | true => rfl
    | false => simp [Loose.text,render,brackets,is,other] at same
  | false =>
    cases brackets : l.bracketed with
    | true => simp [Loose.text,render,brackets,is,Ne.symm other] at same
    | false => rfl

theorem looseUnsound {l : Loose} (fits : l.Fits) (flaw : l.junk ≠ [] ∨ (l.port ≠ none ∧ l.before ≠ []) ∨
    (if wants then 1 else 0) < l.tokens.length) {bracketed : Bool} :
    l.text ≠ render bracketed l.addr l.port (if wants then l.tokens.getLast? else none) := by
  intro same
  have brackets := sameBrackets fits same
  subst brackets
  have lengths := congrArg List.length same
  rw [looseLength l fits.bare,renderLength _ _ _ (if wants then l.tokens.getLast? else none)] at lengths
  -- the tokens that are not written again, and what stands behind the bracket, take no room
  have few : l.junk.length = 0 ∧ l.tokens.length ≤ if wants then 1 else 0 := by
    rcases List.eq_nil_or_concat l.tokens with none' | ⟨ts,t,is⟩
    · have empty : (tokenText (if wants then l.tokens.getLast? else none)).length = 0 := by
        cases wants <;> simp [none',tokenText]
      rw [empty,none'] at lengths
      rw [none',List.length_nil]
      omega
    · rw [List.concat_eq_append] at is
      have rest : ts.length ≤ (ts.map (fun t => t.length + 1)).sum := by
        clear is
        induction ts with
        | nil => simp
        | cons u ts ih => simp; omega
      have total : (l.tokens.map (fun t => t.length + 1)).sum =
          (ts.map (fun t => t.length + 1)).sum + (t.length + 1) := by
        simp [is]
      have count : l.tokens.length = ts.length + 1 := by simp [is]
      rw [total] at lengths
      rw [count]
      cases wants with
      | false =>
        have empty : (tokenText (if false = true then l.tokens.getLast? else none)).length = 0 := rfl
        rw [empty] at lengths
        omega
      | true =>
        have one : (tokenText (if true = true then l.tokens.getLast? else none)).length = t.length + 1 := by
          simp [is,tokenText]
        rw [one] at lengths
        rw [if_pos rfl]
        omega
  rcases flaw with junk | ⟨ported,early⟩ | many
  · exact junk (List.length_eq_zero_iff.mp few.1)
  · obtain ⟨p,port⟩ := Option.ne_none_iff_exists'.mp ported
    obtain ⟨t,ts,before⟩ := List.exists_cons_of_ne_nil early
    have alone : ts = [] ∧ l.after = [] ∧ wants = true := by
      have most := few.2
      rw [Loose.tokens,before] at most
      cases wants with
      | false => simp at most
      | true =>
        simp at most
        exact ⟨most.1,most.2,rfl⟩
    have empty := List.length_eq_zero_iff.mp few.1
    simp [Loose.text,render,portText,tokenText,Loose.tokens,before,alone,port,empty,slashed] at same
    exact absurd same.1 (by decide)
  · omega

theorem looseRender {l : Loose} (junk : l.junk = [])
    (early : l.port ≠ none → l.before = []) (few : l.tokens.length ≤ if wants then 1 else 0) :
    l.text = render l.bracketed l.addr l.port (if wants then l.tokens.getLast? else none) := by
  have front : (if l.bracketed then opening :: (l.addr ++ closing :: l.junk) else l.addr) =
      if l.bracketed then opening :: (l.addr ++ [closing]) else l.addr := by rw [junk]
  have back : slashed l.before ++ (portText l.port ++ slashed l.after) =
      portText l.port ++ tokenText (if wants then l.tokens.getLast? else none) := by
    unfold Loose.tokens at few ⊢
    cases before : l.before with
    | nil =>
      rw [before,List.nil_append] at few
      cases after : l.after with
      | nil => cases wants <;> simp [slashed,tokenText]
      | cons t ts =>
        rw [after] at few
        cases wants with
        | false => simp at few
        | true =>
          have alone : ts = [] := by simpa using few
          simp [slashed,tokenText,alone]
    | cons t ts =>
      have portless : l.port = none := by
        refine Classical.byContradiction (fun ported => ?_)
        rw [early ported] at before
        contradiction
      rw [before] at few
      cases wants with
      | false => simp at few
      | true =>
        have alone : ts = [] ∧ l.after = [] := by simpa using few
        simp [slashed,tokenText,portText,portless,alone]
  rw [Loose.text,render,front,back]

theorem flawedUnsound (visible : ∀ c ∈ str, c ≠ 0) (flawed : Flawed wants (element str)) :
    ¬ Sound wants str := by
  obtain ⟨rest,is,ends,whole⟩ := elementSplit str
  intro sound
  rcases flawed with ⟨inner,opens,open'⟩ | ⟨l,fits,text,flaw⟩
  · rw [opens,List.cons_append] at is
    have found' : found (addrRun wants (opening :: (inner ++ rest))) = _ := unclosedFound open' ends (is ▸ visible)
    obtain ⟨m,finishes,points⟩ := foundSome found'
    rw [← is] at finishes
    obtain ⟨bracketed,same⟩ := sound m finishes inner (by rw [points]; rfl)
    have none' : pointed m .port = none ∧ pointed m .token = none := by
      rw [points]
      exact ⟨rfl,by cases wants <;> rfl⟩
    have lengths := congrArg List.length same
    rw [opens,none'.1,none'.2] at lengths
    cases bracketed <;> simp [render,portText,tokenText] at lengths
  · rw [text] at is
    have found' : found (addrRun wants (l.text ++ rest)) = _ := looseFound fits ends (is ▸ visible)
    obtain ⟨m,finishes,points⟩ := foundSome found'
    rw [← is] at finishes
    obtain ⟨bracketed,same⟩ := sound m finishes l.addr (by rw [points]; rfl)
    rw [text,points] at same
    exact looseUnsound fits flaw same

theorem flawlessSound (visible : ∀ c ∈ str, c ≠ 0) (flawless : ¬ Flawed wants (element str)) :
    Sound wants str := by
  obtain ⟨rest,is,ends,whole⟩ := elementSplit str
  intro m finishes addr points
  have found' : found (addrRun wants str) = some (pointed m) := by
    rw [finishes]
    rfl
  have some' : element str ≠ [] := by
    intro empty
    rw [empty,List.nil_append] at is
    rw [addrRun,runFound (addrLawful wants) visible trivial (Nat.le_refl _),is,readEnds ends] at found'
    rw [← Option.some.inj found'] at points
    contradiction
  have accepted : parseAddr (element str ++ rest) ≠ none := by
    intro none'
    rw [← addrFinds visible wants,is,none'] at found'
    contradiction
  have visible' : ∀ c ∈ element str, c ≠ 0 := fun c mem =>
    visible c (by rw [is]; exact List.mem_append_left _ mem)
  rcases acceptedShape some' whole visible' accepted with ⟨l,fits,text⟩ | unclosed
  · have clean : ¬ (l.junk ≠ [] ∨ (l.port ≠ none ∧ l.before ≠ []) ∨
        (if wants then 1 else 0) < l.tokens.length) :=
      fun flaw => flawless (.inr ⟨l,fits,text,flaw⟩)
    simp only [not_or,not_and,not_not,not_lt] at clean
    rw [is,text,looseFound fits ends (by rw [← text,← is]; exact visible)] at found'
    have finds := Option.some.inj found'
    rw [← finds] at points ⊢
    cases Option.some.inj points
    refine ⟨l.bracketed,?_⟩
    rw [text]
    exact looseRender clean.1 clean.2.1 clean.2.2
  · exact absurd (.inl unclosed) flawless

theorem addrSound (wants : Bool) (str : Text) (visible : ∀ c ∈ str, c ≠ 0) :
    Sound wants str ↔ ¬ Flawed wants (element str) := by
  constructor
  · exact fun sound flawed => flawedUnsound visible flawed sound
  · exact flawlessSound visible

theorem addrSoundUnclosed : ¬ Sound true [91,58,58,49] := fun sound =>
  (addrSound true [91,58,58,49] (by simp)).mp sound (.inl ⟨[58,58,49],by decide,by decide +kernel⟩)

def prefixed : Text := [49,48,46,48,46,48,46,48,47,56,58,56,48]

theorem prefixDropped : ¬ ∀ (wants : Bool) (str : Text), (∀ c ∈ str, c ≠ 0) → Sound wants str := by
  intro always
  have flawed : Flawed false (element prefixed) := by
    refine .inr ⟨⟨false,[49,48,46,48,46,48,46,48],[],[[56]],some [56,48],[]⟩,?_,
        by decide +kernel,.inr (.inl ?_)⟩
    · exact ⟨by decide,by decide +kernel,by decide,by decide,by decide +kernel,by rintro x ⟨rfl⟩; decide +kernel,
        by decide,by decide⟩
    · exact ⟨by decide,by decide⟩
  exact flawedUnsound (by simp [prefixed]) flawed (always false prefixed (by simp [prefixed]))

end soundness

end HevFsh.AddrText
