import HevFsh.AddrScanner

/-! The texts that parse_addr_pair accepts: two to four fields with colons between them,
and what else it takes for such a text. -/
namespace HevFsh.PairText
open CText CommandLine CursorScan AddrScanner Config

def Unbracketed (t : Text) : Prop := ∀ c ∈ t, c ≠ opening ∧ c ≠ closing ∧ c ≠ 0

def Calm (t : Text) : Prop := ∀ c ∈ t, c ≠ colon ∧ c ≠ opening ∧ c ≠ closing ∧ c ≠ 0

instance (t : Text) : Decidable (Unbracketed t) := List.decidableBAll _ _
instance (t : Text) : Decidable (Calm t) := List.decidableBAll _ _

structure Field where
  bracketed : Bool
  text : Text
  deriving DecidableEq, Repr

def Field.render (f : Field) : Text := if f.bracketed then opening :: (f.text ++ [closing]) else f.text

def Field.Fits (f : Field) : Prop := if f.bracketed then Unbracketed f.text else f.text ≠ [] ∧ Calm f.text

instance (f : Field) : Decidable f.Fits := by unfold Field.Fits; infer_instance

def joined (fields : List Field) : Text := [colon].intercalate (fields.map Field.render)

def storeTexts (config : Config) : List Text → Int × Config
  | [address,port,remote,remotePort] => (0,{ config with
      localAddress := some address, localPort := uint32 (atoi port),
      remoteAddress := some remote, remotePort := uint32 (atoi remotePort) })
  | [port,remote,remotePort] => (0,{ config with
      localPort := uint32 (atoi port), remoteAddress := some remote, remotePort := uint32 (atoi remotePort) })
  | [remote,remotePort] => (0,{ config with remoteAddress := some remote, remotePort := uint32 (atoi remotePort) })
  | _ => (-1,config)

structure Piece where
  field : Field
  junk : Text
  deriving DecidableEq, Repr

def Piece.render (p : Piece) : Text := p.field.render ++ p.junk

structure Piece.Fits (p : Piece) : Prop where
  field : p.field.Fits
  junk : Calm p.junk
  bare : p.field.bracketed = false → p.junk = []

inductive Ending where
  | nothing
  | piece (p : Piece)
  | unclosed (inner : Text)
  | more (rest : Text)
  deriving DecidableEq, Repr

def Ending.text : Ending → Text
  | .nothing => []
  | .piece p => p.render
  | .unclosed inner => opening :: inner
  | .more rest => rest

def Ending.texts : Ending → List Text
  | .nothing => []
  | .piece p => [p.field.text]
  | .unclosed inner => [inner]
  | .more _ => []

def Ending.Fits (n : Nat) : Ending → Prop
  | .nothing => n < 4
  | .piece p => n < 4 ∧ p.Fits
  | .unclosed inner => n < 4 ∧ Unbracketed inner
  | .more rest => n = 4 ∧ Unbracketed rest

def Ending.Flaw : Ending → Prop
  | .piece p => p.junk ≠ []
  | _ => True

structure Shape where
  heads : List Piece
  ending : Ending
  deriving DecidableEq, Repr

def headsText (heads : List Piece) : Text := heads.flatMap (fun p => p.render ++ [colon])

def Shape.text (x : Shape) : Text := headsText x.heads ++ x.ending.text

def Shape.texts (x : Shape) : List Text := x.heads.map (fun p => p.field.text) ++ x.ending.texts

structure Shape.Fits (x : Shape) : Prop where
  heads : ∀ p ∈ x.heads, p.Fits
  ending : x.ending.Fits x.heads.length

def Shape.Flaw (x : Shape) : Prop := (∃ p ∈ x.heads, p.junk ≠ []) ∨ x.ending.Flaw

section reading
variable {m : PairState} {j s : Nat} {rest seg : Text} {xs : List Slice} {ts : List Text}

def shut (ts : List Text) : List Slice := ts.map (fun t => ⟨t,false⟩)

theorem slotsGrown (c : UInt8) (xs : List Slice) : grown c (slots xs) = slots (xs.map (Slice.grow c)) := by
  funext k
  simp [grown,slots]

theorem slotsClosed (xs : List Slice) : closed (slots xs) = slots (xs.map Slice.close) := by
  funext k
  simp [closed,slots]

theorem shutGrown (c : UInt8) (ts : List Text) : (shut ts).map (Slice.grow c) = shut ts := by
  simp [shut,Slice.grow]

theorem shutClosed (ts : List Text) : (shut ts).map Slice.close = shut ts := by
  simp [shut,Slice.close]

theorem shutLength (ts : List Text) : (shut ts).length = ts.length := List.length_map _

theorem readPasses (kept : ∀ c ∈ seg, judgePair m c = .pass m none none) (ts : List Text) (t : Text) :
    read judgePair m (slots (shut ts ++ [⟨t,true⟩])) (seg ++ rest) =
      read judgePair m (slots (shut ts ++ [⟨t ++ seg,true⟩])) rest := by
  induction seg generalizing t with
  | nil => simp
  | cons c seg ih =>
    have later := fun x mem => kept x (List.mem_cons_of_mem c mem)
    have grows : (shut ts ++ [(⟨t,true⟩ : Slice)]).map (Slice.grow c) = shut ts ++ [⟨t ++ [c],true⟩] := by
      rw [List.map_append,shutGrown]
      rfl
    rw [List.cons_append,CursorScan.read,pairLook,kept c List.mem_cons_self]
    simp only [setMark,slotsGrown,grows]
    rw [ih later,List.append_assoc]
    rfl

theorem readSkips (kept : ∀ c ∈ seg, judgePair m c = .pass m none none ∨ judgePair m c = .cut m none) :
    read judgePair m (slots (shut ts)) (seg ++ rest) = read judgePair m (slots (shut ts)) rest := by
  induction seg with
  | nil => rfl
  | cons c seg ih =>
    have later := ih (fun x mem => kept x (List.mem_cons_of_mem c mem))
    rw [List.cons_append,CursorScan.read,pairLook]
    rcases kept c List.mem_cons_self with pass | cut
    · rw [pass]
      simp only [setMark,slotsGrown,shutGrown]
      exact later
    · rw [cut]
      simp only [setMark,slotsClosed,shutClosed]
      exact later

theorem passCalm (state : s = 1 ∨ s = 3) (calm : Calm seg) :
    ∀ c ∈ seg, judgePair ⟨s,j⟩ c = .pass ⟨s,j⟩ none none := by
  intro c mem
  obtain ⟨h₁,h₂,h₃,visible⟩ := calm c mem
  have other : s ≠ 0 := by omega
  simp [judgePair,visible,h₁,h₂,h₃,other]

theorem passInner (inner : Unbracketed seg) : ∀ c ∈ seg, judgePair ⟨2,j⟩ c = .pass ⟨2,j⟩ none none := by
  intro c mem
  obtain ⟨h₂,h₃,visible⟩ := inner c mem
  simp [judgePair,visible,h₂,h₃]

theorem passLate (state : s = 1 ∨ s = 3) (full : j = 4) (inner : Unbracketed seg) :
    ∀ c ∈ seg, judgePair ⟨s,j⟩ c = .pass ⟨s,j⟩ none none ∨
      judgePair ⟨s,j⟩ c = .cut ⟨s,j⟩ none := by
  intro c mem
  subst full
  obtain ⟨h₂,h₃,visible⟩ := inner c mem
  by_cases isColon : c = colon
  · rw [isColon]
    rcases state with rfl | rfl <;> exact .inr rfl
  · have other : s ≠ 0 := by omega
    exact .inl (by simp [judgePair,visible,h₂,h₃,isColon,other])

theorem readOpens (room : ts.length < 4) (inner : Unbracketed seg) :
    read judgePair ⟨0,ts.length⟩ (slots (shut ts)) (opening :: (seg ++ rest)) =
      read judgePair ⟨2,ts.length + 1⟩ (slots (shut ts ++ [⟨seg,true⟩])) rest := by
  have free : (shut ts).length < 4 := by rwa [shutLength]
  have move : judgePair ⟨0,ts.length⟩ opening =
      .pass ⟨2,ts.length + 1⟩ none (some ⟨(shut ts).length,free⟩) := by
    simp only [shutLength]
    exact dif_pos room
  rw [CursorScan.read,pairLook,move]
  simp only [setMark,slotsGrown,shutGrown]
  have opened := slotsSet (shut ts) free Slice.begun
  simp only [setMark] at opened
  rw [opened]
  exact readPasses (passInner inner) ts []

theorem readBare (room : ts.length < 4) (some' : seg ≠ []) (calm : Calm seg) :
    read judgePair ⟨0,ts.length⟩ (slots (shut ts)) (seg ++ rest) =
      read judgePair ⟨1,ts.length + 1⟩ (slots (shut ts ++ [⟨seg,true⟩])) rest := by
  obtain ⟨c,seg,rfl⟩ := List.exists_cons_of_ne_nil some'
  obtain ⟨h₁,h₂,h₃,visible⟩ := calm c List.mem_cons_self
  have later : Calm seg := fun x mem => calm x (List.mem_cons_of_mem c mem)
  have free : (shut ts).length < 4 := by rwa [shutLength]
  have move : judgePair ⟨0,ts.length⟩ c = .pass ⟨1,ts.length + 1⟩ (some ⟨(shut ts).length,free⟩) none := by
    simp only [judgePair,visible,h₁,h₂,h₃,if_false,if_true,slot,dif_pos room,shutLength]
  have grows : (shut ts ++ [Slice.begun]).map (Slice.grow c) = shut ts ++ [⟨[c],true⟩] := by
    rw [List.map_append,shutGrown]
    rfl
  rw [List.cons_append,CursorScan.read,pairLook,move]
  simp only [slotsSet (shut ts) free,slotsGrown,grows]
  simp only [setMark]
  exact readPasses (passCalm (.inl rfl) later) ts [c]

theorem shutSnoc (ts : List Text) (t : Text) (live : Bool) :
    (shut ts ++ [(⟨t,live⟩ : Slice)]).map Slice.close = shut (ts ++ [t]) := by
  rw [List.map_append,shutClosed]
  simp [shut,Slice.close]

theorem readPiece (room : ts.length < 4) {p : Piece} (fits : p.Fits) : ∃ s live, (s = 1 ∨ s = 3) ∧
    read judgePair ⟨0,ts.length⟩ (slots (shut ts)) (p.render ++ rest) =
      read judgePair ⟨s,ts.length + 1⟩ (slots (shut ts ++ [⟨p.field.text,live⟩])) rest := by
  obtain ⟨field,junk,bare⟩ := fits
  unfold Field.Fits at field
  cases brackets : p.field.bracketed with
  | true =>
    rw [if_pos brackets] at field
    have text : p.render ++ rest = opening :: (p.field.text ++ (closing :: (p.junk ++ rest))) := by
      simp [Piece.render,Field.render,brackets]
    have closes : judgePair ⟨2,ts.length + 1⟩ closing = .cut ⟨3,ts.length + 1⟩ none := rfl
    refine ⟨3,false,.inr rfl,?_⟩
    rw [text,readOpens room field,CursorScan.read,pairLook,closes]
    simp only [setMark,slotsClosed,shutSnoc]
    rw [readSkips (fun c mem => .inl (passCalm (.inr rfl) junk c mem))]
    simp [shut]
  | false =>
    rw [if_neg (by simp [brackets])] at field
    have text : p.render ++ rest = p.field.text ++ rest := by
      simp [Piece.render,Field.render,brackets,bare brackets]
    refine ⟨1,true,.inl rfl,?_⟩
    rw [text]
    exact readBare room field.1 field.2

theorem readColon (state : s = 1 ∨ s = 3) {t : Text} {live : Bool} :
    read judgePair ⟨s,j⟩ (slots (shut ts ++ [⟨t,live⟩])) (colon :: rest) =
      read judgePair ⟨if j < 4 then 0 else s,j⟩ (slots (shut (ts ++ [t]))) rest := by
  have move : judgePair ⟨s,j⟩ colon = .cut ⟨if j < 4 then 0 else s,j⟩ none := by
    rcases state with rfl | rfl <;> rfl
  rw [CursorScan.read,pairLook,move]
  simp only [setMark,slotsClosed,shutSnoc]

theorem textsSlots (xs : List Slice) : texts (slots xs) = slots (xs.map Slice.text) := by
  funext k
  simp [texts,slots]

theorem shutTexts (ts : List Text) : (shut ts).map Slice.text = ts := by
  rw [shut,List.map_map]
  exact List.map_id ts

theorem readHeads {heads : List Piece} (fits : ∀ p ∈ heads, p.Fits) (room : ts.length < 4)
    (few : ts.length + heads.length ≤ 4) : ∃ s, (ts.length + heads.length < 4 → s = 0) ∧
      (ts.length + heads.length = 4 → s = 1 ∨ s = 3) ∧
      read judgePair ⟨0,ts.length⟩ (slots (shut ts)) (headsText heads ++ rest) =
        read judgePair ⟨s,ts.length + heads.length⟩ (slots (shut (ts ++ heads.map (·.field.text)))) rest := by
  induction heads generalizing ts with
  | nil =>
    refine ⟨0,fun _ => rfl,fun full => ?_,by simp [headsText]⟩
    simp only [List.length_nil] at full
    omega
  | cons p heads ih =>
    have text : headsText (p::heads) ++ rest = p.render ++ colon :: (headsText heads ++ rest) := by
      simp [headsText]
    obtain ⟨s,live,state,reads⟩ := @readPiece (colon :: (headsText heads ++ rest)) ts room p
        (fits p List.mem_cons_self)
    have later := fun x mem => fits x (List.mem_cons_of_mem p mem)
    simp only [List.length_cons] at few ⊢
    rw [text,reads,readColon state]
    by_cases free : ts.length + 1 < 4
    · obtain ⟨s',open',full,reads'⟩ := @ih (ts ++ [p.field.text]) later (by simpa using free) (by simp; omega)
      simp only [List.length_append,List.length_singleton,List.append_assoc,List.singleton_append] at open' full reads'
      refine ⟨s',fun less => open' (by omega),fun same => full (by omega),?_⟩
      rw [if_pos free,reads',Nat.add_assoc,Nat.add_comm 1]
      rfl
    · have last : heads = [] := List.length_eq_zero_iff.mp (by omega)
      subst last
      refine ⟨s,fun less => absurd less free,fun _ => state,?_⟩
      rw [if_neg free]
      simp [headsText]

theorem readEnding {e : Ending} (fits : e.Fits ts.length) (open' : ts.length < 4 → s = 0)
    (full : ts.length = 4 → s = 1 ∨ s = 3) :
    (read judgePair ⟨s,ts.length⟩ (slots (shut ts)) e.text).map texts = some (slots (ts ++ e.texts)) := by
  cases e with
  | nothing =>
    simp only [Ending.text,Ending.texts,CursorScan.read,Option.map_some,textsSlots,shutTexts,List.append_nil]
  | piece p =>
    rw [open' fits.1]
    obtain ⟨s',live,-,reads⟩ := @readPiece [] ts fits.1 p fits.2
    rw [List.append_nil] at reads
    simp only [Ending.text,Ending.texts,reads,CursorScan.read,Option.map_some,textsSlots,List.map_append,shutTexts]
    rfl
  | unclosed inner =>
    rw [open' fits.1]
    have reads := @readOpens [] inner ts fits.1 fits.2
    rw [List.append_nil] at reads
    simp only [Ending.text,Ending.texts,reads,CursorScan.read,Option.map_some,textsSlots,List.map_append,shutTexts]
    rfl
  | more more =>
    obtain ⟨four,inner⟩ := fits
    have skips := @readSkips ⟨s,ts.length⟩ [] more ts (passLate (full four) four inner)
    rw [List.append_nil] at skips
    simp only [Ending.text,Ending.texts,skips,CursorScan.read,Option.map_some,textsSlots,shutTexts,List.append_nil]

theorem shapeFew {x : Shape} (fits : x.Fits) : x.heads.length ≤ 4 ∧ x.texts.length ≤ 4 := by
  obtain ⟨heads,ending⟩ := x
  have last := fits.ending
  cases ending <;> simp only [Ending.Fits] at last <;> simp [Shape.texts,Ending.texts] <;> omega

theorem readShape {x : Shape} (fits : x.Fits) :
    (read judgePair ⟨0,0⟩ (fun _ => none) x.text).map texts = some (slots x.texts) := by
  obtain ⟨s,open',full,reads⟩ := @readHeads x.ending.text [] x.heads fits.heads
      (by decide) (by simpa using (shapeFew fits).1)
  simp only [List.length_nil,Nat.zero_add,List.nil_append] at open' full reads
  have size : x.heads.length = (x.heads.map (·.field.text)).length := by simp
  have ends := fits.ending
  rw [size] at open' full ends reads
  exact (congrArg (Option.map texts) reads).trans (readEnding ends open' full)

end reading

section stores
variable {config : Config} {str : Text}

theorem slotsInj {A : Type} {xs ys : List A} (few : xs.length ≤ 4) (few' : ys.length ≤ 4)
    (same : slots xs = slots ys) :
    xs = ys := by
  refine List.ext_getElem? (fun i => ?_)
  by_cases inside : i < 4
  · exact congrFun same ⟨i,inside⟩
  · rw [List.getElem?_eq_none (by omega),List.getElem?_eq_none (by omega)]

theorem setStores : parseSetAddrPair config str = match parseAddrPair str with
    | none => (-1,config)
    | some (b,ps) => storeTexts config (ps.map (textAt b)) := by
  unfold parseSetAddrPair
  rcases parseAddrPair str with _ | ⟨b,_ | ⟨p₀,
      _ | ⟨p₁,_ | ⟨p₂,_ | ⟨p₃,_ | ⟨p₄,ps⟩⟩⟩⟩⟩⟩ <;> rfl

theorem fieldVisible {f : Field} (fits : f.Fits) : ∀ c ∈ f.render, c ≠ 0 := by
  intro c mem
  unfold Field.Fits at fits
  unfold Field.render at mem
  split at fits
  · rename_i brackets
    simp only [brackets,if_true,List.mem_cons,List.mem_append,List.not_mem_nil,or_false] at mem
    rcases mem with rfl | inside | rfl
    · decide
    · exact (fits c inside).2.2
    · decide
  · rename_i bare
    rw [if_neg bare] at mem
    exact (fits.2 c mem).2.2.2

theorem pieceVisible {p : Piece} (fits : p.Fits) : ∀ c ∈ p.render, c ≠ 0 := by
  intro c mem
  rcases List.mem_append.mp mem with front | back
  · exact fieldVisible fits.field c front
  · exact (fits.junk c back).2.2.2

theorem shapeVisible {x : Shape} (fits : x.Fits) : ∀ c ∈ x.text, c ≠ 0 := by
  intro c mem
  rcases List.mem_append.mp mem with front | back
  · obtain ⟨p,inside,here⟩ := List.mem_flatMap.mp front
    rcases List.mem_append.mp here with piece | last
    · exact pieceVisible (fits.heads p inside) c piece
    · rw [List.mem_singleton.mp last]
      decide
  · have last := fits.ending
    cases ending : x.ending with
    | nothing => simp [ending,Ending.text] at back
    | piece p =>
      rw [ending] at back last
      exact pieceVisible last.2 c back
    | unclosed inner =>
      rw [ending] at back last
      rcases List.mem_cons.mp back with rfl | inside
      · decide
      · exact (last.2 c inside).2.2
    | more more =>
      rw [ending] at back last
      exact (last.2 c back).2.2

theorem shapeStores {x : Shape} (fits : x.Fits) : parseSetAddrPair config x.text = storeTexts config x.texts := by
  have visible := shapeVisible fits
  have finds := pairFinds visible
  rw [pairRun,runFound pairLawful visible (fun _ => by decide) (Nat.le_refl _),readShape fits] at finds
  cases parsed : parseAddrPair x.text with
  | none =>
    rw [parsed] at finds
    contradiction
  | some q =>
    rw [parsed] at finds
    have few := pairFew (fun _ => by decide) (by decide) parsed
    have same := slotsInj (by simpa using few) (shapeFew fits).2 (Option.some.inj finds)
    rw [setStores,parsed]
    exact congrArg (storeTexts config) same

def Field.clean (f : Field) : Piece := ⟨f,[]⟩

theorem cleanFits {f : Field} (fits : f.Fits) : f.clean.Fits := ⟨fits,by simp [Field.clean,Calm],fun _ => rfl⟩

theorem cleanRender (f : Field) : f.clean.render = f.render := List.append_nil _

theorem joinedCons (f g : Field) (fields : List Field) :
    joined (f::g::fields) = f.render ++ colon :: joined (g::fields) := by
  simp [joined,List.intercalate]

def cleanShape (fields : List Field) (last : Field) : Shape := ⟨fields.map Field.clean,.piece last.clean⟩

theorem cleanText (fields : List Field) (last : Field) : (cleanShape fields last).text = joined (fields ++ [last]) := by
  induction fields with
  | nil => simp [cleanShape,Shape.text,Ending.text,headsText,cleanRender,joined,List.intercalate]
  | cons f fields ih =>
    obtain ⟨g,more,is⟩ := List.exists_cons_of_ne_nil (l := fields ++ [last]) (by simp)
    have text : (cleanShape (f::fields) last).text = f.render ++ colon :: (cleanShape fields last).text := by
      simp [cleanShape,Shape.text,headsText,cleanRender]
    rw [text,ih,List.cons_append,is,joinedCons]

theorem cleanTexts (fields : List Field) (last : Field) :
    (cleanShape fields last).texts = (fields ++ [last]).map Field.text := by
  simp [cleanShape,Shape.texts,Ending.texts,Field.clean]

theorem fieldsSplit {fields : List Field} (some' : fields ≠ []) : ∃ front last, fields = front ++ [last] :=
  ⟨fields.dropLast,fields.getLast some',(List.dropLast_concat_getLast some').symm⟩

theorem cleanShapeFits {fields : List Field} {last : Field} (few : (fields ++ [last]).length ≤ 4)
    (fits : ∀ f ∈ fields ++ [last], f.Fits) : (cleanShape fields last).Fits := by
  simp only [List.length_append,List.length_singleton] at few
  refine ⟨?_,by simp [cleanShape]; omega,cleanFits (fits last (by simp))⟩
  intro p mem
  obtain ⟨f,inside,rfl⟩ := List.mem_map.mp mem
  exact cleanFits (fits f (List.mem_append_left _ inside))

theorem joinedVisible {fields : List Field} (some' : fields ≠ []) (few : fields.length ≤ 4)
    (fits : ∀ f ∈ fields, f.Fits) :
    ∀ c ∈ joined fields, c ≠ 0 := by
  obtain ⟨front,last,rfl⟩ := fieldsSplit some'
  rw [← cleanText]
  exact shapeVisible (cleanShapeFits few fits)

theorem joinedStores {fields : List Field} (some' : fields ≠ []) (few : fields.length ≤ 4)
    (fits : ∀ f ∈ fields, f.Fits) :
    parseSetAddrPair config (joined fields) = storeTexts config (fields.map Field.text) := by
  obtain ⟨front,last,rfl⟩ := fieldsSplit some'
  rw [← cleanText,← cleanTexts]
  exact shapeStores (cleanShapeFits few fits)

end stores

section shapes
variable {m : PairState} {s j : Nat} {c : UInt8} {seg rest str : Text}

def Accepts (m : PairState) (str : Text) : Prop := ∃ parts, read judgePair m parts str ≠ none

theorem acceptsNext (accepts : Accepts m (c::rest)) (visible : c ≠ 0) : ∃ m', Accepts m' rest ∧
    ((∃ here next, judgePair m c = .pass m' here next) ∨ ∃ next, judgePair m c = .cut m' next) := by
  obtain ⟨parts,some'⟩ := accepts
  rw [CursorScan.read,pairLook] at some'
  cases move : judgePair m c with
  | refuse =>
    rw [move] at some'
    exact absurd rfl some'
  | wild =>
    rw [move] at some'
    exact absurd rfl some'
  | finish cut =>
    cases cut with
    | false => exact absurd (pairLawful.whole m c move) visible
    | true =>
      have moves := pairMoves m c
      rw [move] at moves
      cases moves
  | stay m' =>
    rw [move] at some'
    exact absurd rfl some'
  | pass m' here next =>
    rw [move] at some'
    exact ⟨m',⟨_,some'⟩,.inl ⟨here,next,rfl⟩⟩
  | cut m' next =>
    rw [move] at some'
    exact ⟨m',⟨_,some'⟩,.inr ⟨next,rfl⟩⟩

theorem acceptsPass {m' : PairState} {here next : Option (Fin 4)} (accepts : Accepts m (c::rest)) (visible : c ≠ 0)
    (move : judgePair m c = .pass m' here next) : Accepts m' rest := by
  obtain ⟨m'',later,⟨here',next',is⟩ | ⟨next',is⟩⟩ := acceptsNext accepts visible
  · rw [move] at is
    cases is
    exact later
  · rw [move] at is
    contradiction

theorem acceptsCut {m' : PairState} {next : Option (Fin 4)} (accepts : Accepts m (c::rest)) (visible : c ≠ 0)
    (move : judgePair m c = .cut m' next) : Accepts m' rest := by
  obtain ⟨m'',later,⟨here',next',is⟩ | ⟨next',is⟩⟩ := acceptsNext accepts visible
  · rw [move] at is
    contradiction
  · rw [move] at is
    cases is
    exact later

theorem acceptsNot (refuses : judgePair m c = .refuse) : ¬ Accepts m (c::rest) := by
  rintro ⟨parts,some'⟩
  rw [CursorScan.read,pairLook,refuses] at some'
  exact some' rfl

theorem acceptsKept (kept : ∀ c ∈ seg, judgePair m c = .pass m none none ∨ judgePair m c = .cut m none)
    (visible : ∀ c ∈ seg, c ≠ 0) (accepts : Accepts m (seg ++ rest)) : Accepts m rest := by
  induction seg with
  | nil => exact accepts
  | cons c seg ih =>
    have here := visible c List.mem_cons_self
    refine ih (fun x mem => kept x (List.mem_cons_of_mem c mem)) (fun x mem => visible x
        (List.mem_cons_of_mem c mem)) ?_
    rcases kept c List.mem_cons_self with pass | cut
    · exact acceptsPass accepts here pass
    · exact acceptsCut accepts here cut

def Separator (c : UInt8) : Prop := c = colon ∨ c = opening ∨ c = closing

instance (c : UInt8) : Decidable (Separator c) := by unfold Separator; infer_instance

theorem lateBracket (state : s = 1 ∨ s = 3) (bracket : c = opening ∨ c = closing) :
    judgePair ⟨s,j⟩ c = .refuse := by
  rcases state with rfl | rfl <;> rcases bracket with rfl | rfl <;> rfl

theorem lateRest (state : s = 1 ∨ s = 3) (visible : ∀ c ∈ str, c ≠ 0)
    (accepts : Accepts ⟨s,4⟩ str) : Unbracketed str := by
  intro c mem
  have plain : ¬ ∃ c ∈ str, c = opening ∨ c = closing := by
    intro some'
    obtain ⟨l,x,r,rfl,bracket,first⟩ := firstOf some'
    have calm : Unbracketed l := fun d mem =>
      ⟨fun same => first d mem (.inl same),fun same => first d mem (.inr same),visible d (by simp [mem])⟩
    have here := acceptsKept (passLate state rfl calm) (fun d mem => visible d (by simp [mem])) accepts
    exact acceptsNot (lateBracket state bracket) here
  exact ⟨fun same => plain ⟨c,mem,.inl same⟩,fun same => plain ⟨c,mem,.inr same⟩,visible c mem⟩

theorem lateSplit (state : s = 1 ∨ s = 3) (visible : ∀ c ∈ str, c ≠ 0)
    (accepts : Accepts ⟨s,j⟩ str) : Calm str ∨
    ∃ seg rest, str = seg ++ colon :: rest ∧ Calm seg ∧ Accepts ⟨if j < 4 then 0 else s,j⟩ rest := by
  by_cases some' : ∃ c ∈ str, Separator c
  · obtain ⟨seg,x,rest,rfl,separator,first⟩ := firstOf some'
    have calm : Calm seg := fun d mem => ⟨fun same => first d mem (.inl same),
        fun same => first d mem (.inr (.inl same)),
      fun same => first d mem (.inr (.inr same)),visible d (by simp [mem])⟩
    have here := acceptsKept (fun d mem => .inl (passCalm state calm d mem)) (fun d mem =>
        visible d (by simp [mem])) accepts
    rcases separator with rfl | bracket
    · have move : judgePair ⟨s,j⟩ colon = .cut ⟨if j < 4 then 0 else s,j⟩ none := by
        rcases state with rfl | rfl <;> rfl
      exact .inr ⟨seg,rest,rfl,calm,acceptsCut here (by decide) move⟩
    · exact absurd here (acceptsNot (lateBracket state bracket))
  · refine .inl (fun c mem => ?_)
    have other : ¬ Separator c := fun separator => some' ⟨c,mem,separator⟩
    simp only [Separator,not_or] at other
    exact ⟨other.1,other.2.1,other.2.2,visible c mem⟩

theorem pieceSplit (free : j < 4) (some' : str ≠ []) (visible : ∀ c ∈ str, c ≠ 0)
    (accepts : Accepts ⟨0,j⟩ str) :
    (∃ inner, str = opening :: inner ∧ Unbracketed inner) ∨
      ∃ (p : Piece) (s : Nat) (rest : Text), p.Fits ∧ (s = 1 ∨ s = 3) ∧ (str = p.render ∨
        (str = p.render ++ colon :: rest ∧ Accepts ⟨if j + 1 < 4 then 0 else s,j + 1⟩ rest)) := by
  obtain ⟨c,str,rfl⟩ := List.exists_cons_of_ne_nil some'
  have here := visible c List.mem_cons_self
  have later : ∀ d ∈ str, d ≠ 0 := fun d mem => visible d (List.mem_cons_of_mem c mem)
  by_cases opens : c = opening
  · subst opens
    have move : judgePair ⟨0,j⟩ opening = .pass ⟨2,j + 1⟩ none (some ⟨j,free⟩) := dif_pos free
    have inside := acceptsPass accepts here move
    by_cases ends : ∃ d ∈ str, d = opening ∨ d = closing
    · obtain ⟨inner,x,rest,rfl,bracket,first⟩ := firstOf ends
      have calm : Unbracketed inner := fun d mem =>
        ⟨fun same => first d mem (.inl same),fun same => first d mem (.inr same),later d (by simp [mem])⟩
      have at' := acceptsKept (fun d mem => .inl (passInner calm d mem)) (fun d mem => later d (by simp [mem])) inside
      rcases bracket with rfl | rfl
      · exact absurd at' (acceptsNot rfl)
      · have behind : Accepts ⟨3,j + 1⟩ rest := acceptsCut at' (by decide) rfl
        right
        rcases lateSplit (.inr rfl) (fun d mem => later d (by simp [mem])) behind with junk | ⟨junk,
            rest',rfl,calm',next⟩
        · exact ⟨⟨⟨true,inner⟩,rest⟩,3,[],⟨calm,junk,by simp⟩,.inr rfl,
              .inl (by simp [Piece.render,Field.render])⟩
        · exact ⟨⟨⟨true,inner⟩,junk⟩,3,rest',⟨calm,calm',by simp⟩,.inr rfl,
              .inr ⟨by simp [Piece.render,Field.render],next⟩⟩
    · exact .inl ⟨str,rfl,fun d mem => ⟨fun same => ends ⟨d,mem,.inl same⟩,
          fun same => ends ⟨d,mem,.inr same⟩,later d mem⟩⟩
  · have notColon : c ≠ colon := by
      rintro rfl
      exact acceptsNot rfl accepts
    have notClosing : c ≠ closing := by
      rintro rfl
      exact acceptsNot rfl accepts
    have move : judgePair ⟨0,j⟩ c = .pass ⟨1,j + 1⟩ (some ⟨j,free⟩) none := by
      simp only [judgePair,here,notColon,opens,notClosing,if_false,if_true,slot,dif_pos free]
    have behind := acceptsPass accepts here move
    have longer : ∀ {seg : Text}, Calm seg → Field.Fits ⟨false,c::seg⟩ := by
      intro seg calm
      refine ⟨by simp,fun d mem => ?_⟩
      rcases List.mem_cons.mp mem with rfl | inside
      · exact ⟨notColon,opens,notClosing,here⟩
      · exact calm d inside
    right
    rcases lateSplit (.inl rfl) later behind with calm | ⟨seg,rest,rfl,calm,next⟩
    · exact ⟨⟨⟨false,c::str⟩,[]⟩,1,[],⟨longer calm,by simp [Calm],fun _ => rfl⟩,.inl rfl,
        .inl (by simp [Piece.render,Field.render])⟩
    · exact ⟨⟨⟨false,c::seg⟩,[]⟩,1,rest,⟨longer calm,by simp [Calm],fun _ => rfl⟩,.inl rfl,
        .inr ⟨by simp [Piece.render,Field.render],next⟩⟩

theorem shapeFrom (n : Nat) (free : j + n = 4) (some' : n ≠ 0) (visible : ∀ c ∈ str, c ≠ 0)
    (accepts : Accepts ⟨0,j⟩ str) :
    ∃ heads ending, str = headsText heads ++ ending.text ∧ (∀ p ∈ heads, p.Fits) ∧
      Ending.Fits (j + heads.length) ending := by
  induction n generalizing j str with
  | zero => contradiction
  | succ n ih =>
    by_cases empty : str = []
    · refine ⟨[],.nothing,by simp [empty,headsText,Ending.text],by simp,?_⟩
      simp only [Ending.Fits,List.length_nil]
      omega
    rcases pieceSplit (by omega) empty visible accepts with ⟨inner,is,calm⟩ | ⟨p,s,
        rest,fits,state,is | ⟨is,next⟩⟩
    · exact ⟨[],.unclosed inner,is,by simp,⟨by simp; omega,calm⟩⟩
    · exact ⟨[],.piece p,is,by simp,⟨by simp; omega,fits⟩⟩
    have later : ∀ c ∈ rest, c ≠ 0 := fun c mem => visible c (by rw [is]; simp [mem])
    by_cases last : n = 0
    · have four : j + 1 = 4 := by omega
      rw [four,if_neg (by decide)] at next
      refine ⟨[p],.more rest,by simp [is,headsText,Ending.text],?_,⟨by simp; omega,lateRest state later next⟩⟩
      intro q mem
      rw [List.mem_singleton.mp mem]
      exact fits
    · rw [if_pos (by omega)] at next
      obtain ⟨heads,ending,is',fits',ends⟩ := ih (by omega) last later next
      refine ⟨p::heads,ending,by rw [is,is']; simp [headsText],?_,?_⟩
      · intro q mem
        rcases List.mem_cons.mp mem with rfl | inside
        · exact fits
        · exact fits' q inside
      · rw [List.length_cons,← Nat.add_assoc,Nat.add_right_comm]
        exact ends

theorem acceptedShape (visible : ∀ c ∈ str, c ≠ 0) (accepted : parseAddrPair str ≠ none) :
    ∃ x : Shape, x.Fits ∧ str = x.text := by
  have finds := pairFinds visible
  rw [pairRun,runFound pairLawful visible (fun _ => by decide) (Nat.le_refl _)] at finds
  have accepts : Accepts ⟨0,0⟩ str := by
    refine ⟨fun _ => none,fun none' => accepted ?_⟩
    rw [none'] at finds
    exact Option.map_eq_none_iff.mp finds
  obtain ⟨heads,ending,is,fits,ends⟩ := shapeFrom 4 rfl (by decide) visible accepts
  rw [Nat.zero_add] at ends
  exact ⟨⟨heads,ending⟩,⟨fits,ends⟩,is⟩

end shapes

section unique
variable {fields : List Field} {x : Shape}

theorem spanSame {P : UInt8 → Prop} {a b r r' : Text} {d e : UInt8} (all : ∀ c ∈ a, P c) (all' : ∀ c ∈ b, P c)
    (stop : ¬ P d) (stop' : ¬ P e) (same : a ++ d :: r = b ++ e :: r') : a = b ∧ r = r' := by
  induction a generalizing b with
  | nil =>
    cases b with
    | nil => exact ⟨rfl,(List.cons.inj same).2⟩
    | cons x b => exact absurd ((List.cons.inj same).1 ▸ all' x List.mem_cons_self) stop
  | cons x a ih =>
    cases b with
    | nil => exact absurd ((List.cons.inj same).1 ▸ all x List.mem_cons_self) stop'
    | cons y b =>
      obtain ⟨head,tail⟩ := List.cons.inj same
      obtain ⟨rest,more⟩ := ih (fun c mem => all c (List.mem_cons_of_mem x mem))
        (fun c mem => all' c (List.mem_cons_of_mem y mem)) tail
      exact ⟨by rw [head,rest],more⟩

theorem bareFirst {f : Field} {r : Text} (fits : f.Fits) (bare : f.bracketed = false) (c : UInt8) (r' : Text)
    (same : f.render ++ r = c :: r') : c ≠ opening := by
  unfold Field.Fits at fits
  rw [if_neg (by simp [bare])] at fits
  obtain ⟨d,more,is⟩ := List.exists_cons_of_ne_nil fits.1
  simp only [Field.render,bare,is,Bool.false_eq_true,if_false,List.cons_append,List.cons.injEq] at same
  rw [← same.1]
  exact (fits.2 d (by simp [is])).2.1

theorem pieceSame {p : Piece} {f : Field} {r r' : Text} (fits : p.Fits) (fits' : f.Fits)
    (same : p.render ++ colon :: r = f.render ++ colon :: r') : p = f.clean ∧ r = r' := by
  obtain ⟨⟨bracketed,text⟩,junk⟩ := p
  obtain ⟨bracketed',text'⟩ := f
  obtain ⟨field,calm,bare⟩ := fits
  cases bracketed with
  | true =>
    cases bracketed' with
    | true =>
      simp only [Piece.render,Field.render,if_true,List.cons_append,List.append_assoc,List.nil_append,List.cons.injEq,
        true_and] at same
      obtain ⟨rfl,more⟩ := spanSame (P := fun c => c ≠ closing) (fun c mem => (field c mem).2.1)
        (fun c mem => (fits' c mem).2.1) (by simp) (by simp) same
      obtain ⟨rfl,rest⟩ := @spanSame (fun c => c ≠ colon) junk [] r r' colon colon (fun c mem => (calm c mem).1)
        (by simp) (by simp) (by simp) more
      exact ⟨rfl,rest⟩
    | false =>
      have begins : Field.render ⟨false,text'⟩ ++ colon :: r' = opening :: ((text ++ [closing] ++ junk) ++
          colon :: r) := by
        rw [← same]
        simp [Piece.render,Field.render]
      exact absurd rfl (bareFirst fits' rfl opening _ begins)
  | false =>
    have empty : junk = [] := bare rfl
    subst empty
    cases bracketed' with
    | true =>
      have begins : Field.render ⟨false,text⟩ ++ colon :: r = opening :: ((text' ++ [closing]) ++ colon :: r') := by
        have whole : Piece.render ⟨⟨false,text⟩,[]⟩ = Field.render ⟨false,text⟩ := List.append_nil _
        rw [← whole,same]
        simp [Field.render]
      exact absurd rfl (bareFirst field rfl opening _ begins)
    | false =>
      simp only [Piece.render,Field.render,Bool.false_eq_true,if_false,List.append_nil] at same
      obtain ⟨rfl,rest⟩ := spanSame (P := fun c => c ≠ colon) (fun c mem => (field.2 c mem).1)
        (fun c mem => (fits'.2 c mem).1) (by simp) (by simp) same
      exact ⟨rfl,rest⟩

theorem headsSame {heads : List Piece} {tail : Text} (fits : ∀ p ∈ heads, p.Fits) (fits' : ∀ f ∈ fields, f.Fits)
    (same : headsText heads ++ tail = headsText (fields.map Field.clean)) :
    ∃ rest : List Field, fields.map Field.clean = heads ++ rest.map Field.clean ∧ (∀ f ∈ rest, f.Fits) ∧
      tail = headsText (rest.map Field.clean) := by
  induction heads generalizing fields with
  | nil => exact ⟨fields,rfl,fits',same⟩
  | cons p heads ih =>
    cases fields with
    | nil => simp [headsText] at same
    | cons f fields =>
      have text : p.render ++ colon :: (headsText heads ++ tail) =
          f.render ++ colon :: headsText (fields.map Field.clean) := by
        simpa [headsText,cleanRender] using same
      obtain ⟨is,later⟩ := pieceSame (fits p List.mem_cons_self) (fits' f List.mem_cons_self) text
      obtain ⟨rest,split,fits'',ends⟩ := ih (fun x mem => fits x (List.mem_cons_of_mem p mem))
        (fun x mem => fits' x (List.mem_cons_of_mem f mem)) later
      exact ⟨rest,by rw [List.map_cons,split,is,List.cons_append],fits'',ends⟩

theorem joinedHeads (some' : fields ≠ []) : joined fields ++ [colon] = headsText (fields.map Field.clean) := by
  obtain ⟨front,last,rfl⟩ := fieldsSplit some'
  rw [← cleanText]
  simp [cleanShape,Shape.text,Ending.text,headsText]

theorem renderSome {f : Field} (fits : f.Fits) : f.render ≠ [] := by
  unfold Field.Fits at fits
  unfold Field.render
  split
  · simp
  · rename_i bare
    rw [if_neg bare] at fits
    exact fits.1

theorem endingClean {e : Ending} {n : Nat} (fits : e.Fits n) (fits' : ∀ f ∈ fields, f.Fits)
    (few : n + fields.length ≤ 4)
    (same : e.text ++ [colon] = headsText (fields.map Field.clean)) : ¬ e.Flaw := by
  cases fields with
  | nil => simp [headsText] at same
  | cons f fields =>
    have text : e.text ++ [colon] = f.render ++ colon :: headsText (fields.map Field.clean) := by
      simpa [headsText,cleanRender] using same
    have here := fits' f List.mem_cons_self
    cases e with
    | nothing =>
      obtain ⟨c,more,is⟩ := List.exists_cons_of_ne_nil (renderSome here)
      simp [Ending.text,is] at text
    | piece p =>
      obtain ⟨is,-⟩ := pieceSame fits.2 here text
      simp [Ending.Flaw,is,Field.clean]
    | unclosed inner =>
      cases brackets : f.bracketed with
      | true =>
        have closes : closing ∈ inner ++ [colon] := by
          simp only [Ending.text,Field.render,brackets,if_true,List.cons_append,List.cons.injEq,true_and] at text
          rw [text]
          simp
        rcases List.mem_append.mp closes with inside | last
        · exact absurd rfl (fits.2 closing inside).2.1
        · exact absurd (List.mem_singleton.mp last) (by decide)
      | false => exact absurd rfl (bareFirst here brackets opening _ text.symm)
    | more more =>
      have four := fits.1
      simp only [List.length_cons] at few
      omega

theorem joinedClean (fits : x.Fits) (some' : fields ≠ []) (few : fields.length ≤ 4)
    (fits' : ∀ f ∈ fields, f.Fits)
    (same : x.text = joined fields) : ¬ x.Flaw := by
  have text : headsText x.heads ++ (x.ending.text ++ [colon]) = headsText (fields.map Field.clean) := by
    rw [← joinedHeads some',← same]
    simp [Shape.text]
  obtain ⟨rest,split,fits'',ends⟩ := headsSame fits.heads fits' text
  have count := congrArg List.length split
  simp only [List.length_map,List.length_append] at count
  rintro (⟨p,inside,junk⟩ | flaw)
  · have mem : p ∈ fields.map Field.clean := by
      rw [split]
      exact List.mem_append_left _ inside
    obtain ⟨f,-,rfl⟩ := List.mem_map.mp mem
    exact junk rfl
  · exact endingClean fits.ending fits'' (by omega) ends flaw

theorem cleanJoined (fits : x.Fits) (clean : ¬ x.Flaw) : ∃ fields, fields ≠ [] ∧ (∀ f ∈ fields, f.Fits) ∧
    x.text = joined fields ∧ x.texts = fields.map Field.text := by
  obtain ⟨heads,ending⟩ := x
  simp only [Shape.Flaw,not_or,not_exists,not_and,not_not] at clean
  obtain ⟨junkless,ends⟩ := clean
  cases ending with
  | nothing => exact absurd trivial ends
  | unclosed inner => exact absurd trivial ends
  | more rest => exact absurd trivial ends
  | piece last =>
    have same : heads = (heads.map Piece.field).map Field.clean := by
      rw [List.map_map]
      refine (List.map_id heads).symm.trans (List.map_congr_left (fun p mem => ?_))
      obtain ⟨field,junk⟩ := p
      have empty := junkless ⟨field,junk⟩ mem
      simp only at empty
      rw [empty]
      rfl
    have last' : last = last.field.clean := by
      obtain ⟨field,junk⟩ := last
      simp only [Ending.Flaw,not_not] at ends
      rw [ends]
      rfl
    have shape : (⟨heads,.piece last⟩ : Shape) = cleanShape (heads.map Piece.field) last.field := by
      rw [cleanShape,← same,← last']
    refine ⟨heads.map Piece.field ++ [last.field],by simp,?_,?_,?_⟩
    · intro f mem
      rcases List.mem_append.mp mem with front | back
      · obtain ⟨p,inside,rfl⟩ := List.mem_map.mp front
        exact (fits.heads p inside).field
      · rw [List.mem_singleton.mp back]
        exact fits.ending.2.field
    · rw [shape,cleanText]
    · rw [shape,cleanTexts]

end unique

section acceptance
variable {config : Config} {str : Text}

theorem pairComplete (str : Text) (visible : ∀ c ∈ str, c ≠ 0) (config : Config) (front : List Field)
    (remote remotePort : Field) (few : front.length ≤ 2) (fits : ∀ f ∈ front ++ [remote,remotePort], f.Fits) :
    (pairRun str = .refused ∨ ∃ m, pairRun str = .finished m) ∧
      parseSetAddrPair config (joined (front ++ [remote,remotePort])) = (0,{ config with
        localAddress := match front with
          | [address,_] => some address.text
          | _ => config.localAddress,
        localPort := match front.getLast? with
          | some port => uint32 (atoi port.text)
          | none => config.localPort,
        remoteAddress := some remote.text,
        remotePort := uint32 (atoi remotePort.text) }) := by
  refine ⟨pairEnds visible,?_⟩
  rw [joinedStores (by simp) (by simp; omega) fits]
  obtain _ | ⟨address,_ | ⟨port,_ | ⟨more,front⟩⟩⟩ := front
  · rfl
  · rfl
  · rfl
  · simp at few

theorem pairCompleteFour : (pairRun [49,58,50,58,51,58,52,58,53,58,54] = .refused ∨
      ∃ m, pairRun [49,58,50,58,51,58,52,58,53,58,54] = .finished m) ∧
    parseSetAddrPair configNew (joined [⟨false,loopback⟩,⟨true,[56,48]⟩,
      ⟨true,[58,58,49]⟩,⟨false,[50,50]⟩]) =
      (0,{ configNew with
        localAddress := some loopback, localPort := 80, remoteAddress := some [58,58,49], remotePort := 22 }) :=
  pairComplete [49,58,50,58,51,58,52,58,53,58,54] (by simp) configNew [⟨false,loopback⟩,⟨true,[56,48]⟩]
    ⟨true,[58,58,49]⟩ ⟨false,[50,50]⟩ (by decide) (by decide +kernel)

def PairSound (config : Config) (str : Text) : Prop :=
  ∀ done, parseSetAddrPair config str = (0,done) →
    ∃ fields : List Field, 2 ≤ fields.length ∧ fields.length ≤ 4 ∧
    (∀ f ∈ fields, f.Fits) ∧ str = joined fields ∧ storeTexts config (fields.map Field.text) = (0,done)

def Flawed (str : Text) : Prop := ∃ x : Shape, x.Fits ∧ str = x.text ∧ 2 ≤ x.texts.length ∧ x.Flaw

theorem storesSome {ts : List Text} (low : 2 ≤ ts.length) (high : ts.length ≤ 4) :
    ∃ done, storeTexts config ts = (0,done) := by
  obtain _ | ⟨a,_ | ⟨b,_ | ⟨c,_ | ⟨d,_ | ⟨e,ts⟩⟩⟩⟩⟩ := ts
  · simp at low
  · simp at low
  · exact ⟨_,rfl⟩
  · exact ⟨_,rfl⟩
  · exact ⟨_,rfl⟩
  · simp only [List.length_cons] at high
    omega

theorem storesFew {ts : List Text} {done : Config} (stores : storeTexts config ts = (0,done)) :
    2 ≤ ts.length ∧ ts.length ≤ 4 := by
  obtain _ | ⟨a,_ | ⟨b,_ | ⟨c,_ | ⟨d,_ | ⟨e,ts⟩⟩⟩⟩⟩ := ts
  · simp [storeTexts] at stores
  · simp [storeTexts] at stores
  · simp
  · simp
  · simp
  · simp [storeTexts] at stores

theorem flawedUnsound (flawed : Flawed str) : ¬ PairSound config str := by
  obtain ⟨x,fits,rfl,low,flaw⟩ := flawed
  obtain ⟨done,stores⟩ := @storesSome config _ low (shapeFew fits).2
  intro sound
  obtain ⟨fields,some',few,fits',same,-⟩ := sound done (by rw [shapeStores fits,stores])
  refine joinedClean fits ?_ few fits' same flaw
  rintro rfl
  simp at some'

theorem pairSound (config : Config) (str : Text) (visible : ∀ c ∈ str, c ≠ 0) :
    PairSound config str ↔ ¬ Flawed str := by
  constructor
  · exact fun sound flawed => flawedUnsound flawed sound
  intro flawless done stores
  have accepted : parseAddrPair str ≠ none := by
    intro none'
    rw [setStores,none'] at stores
    simp at stores
  obtain ⟨x,fits,rfl⟩ := acceptedShape visible accepted
  rw [shapeStores fits] at stores
  have counts := storesFew stores
  obtain ⟨fields,-,fits',same,texts⟩ := cleanJoined fits (fun flaw => flawless ⟨x,fits,rfl,counts.1,flaw⟩)
  rw [texts,List.length_map] at counts
  exact ⟨fields,counts.1,counts.2,fits',same,by rw [← texts,stores]⟩

theorem pairSoundTrailing : ¬ PairSound configNew [56,48,58,104,58,50,50,58] := fun sound =>
  (pairSound configNew [56,48,58,104,58,50,50,58] (by simp)).mp sound
    ⟨⟨[⟨⟨false,[56,48]⟩,[]⟩,⟨⟨false,[104]⟩,[]⟩,⟨⟨false,[50,50]⟩,[]⟩],.nothing⟩,
      ⟨by
        simp only [List.forall_mem_cons]
        exact ⟨⟨by decide,by decide,by decide⟩,⟨by decide,by decide,by decide⟩,
            ⟨by decide,by decide,by decide⟩,by simp⟩,
        (by decide : 3 < 4)⟩,by decide,by decide,.inr trivial⟩

theorem pairUnclosed : ¬ ∀ (config : Config) (str : Text), (∀ c ∈ str, c ≠ 0) → PairSound config str := by
  intro always
  have flawed : Flawed [56,48,58,91,58,58,49] := by
    refine ⟨⟨[⟨⟨false,[56,48]⟩,[]⟩],.unclosed [58,58,49]⟩,⟨?_,⟨by decide,by decide⟩⟩,
        by decide,by decide,.inr trivial⟩
    simp only [List.forall_mem_cons]
    exact ⟨⟨by decide,by decide,by decide⟩,by simp⟩
  exact flawedUnsound flawed (always configNew [56,48,58,91,58,58,49] (by simp))

end acceptance

end HevFsh.PairText
