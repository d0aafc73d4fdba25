import HevFsh.CommandLine

/-! Lists of ADDR:PORT and [ADDR6]:PORT elements as -w and -b take them: what the
parsers make of every element, whatever its address is. -/
namespace HevFsh.CommandLine
open Inet CText Config HostOrder

structure Element where
  bracketed : Bool
  addr : Text
  port : Text
  deriving DecidableEq, Repr

def Element.text (e : Element) : Text :=
  if e.bracketed then opening :: (e.addr ++ closing :: colon :: e.port) else e.addr ++ colon :: e.port

def listText : List (Option Element) → Text
  | [] => []
  | [e] => (e.map Element.text).getD []
  | e::es => (e.map Element.text).getD [] ++ comma :: listText es

structure Element.Port (e : Element) : Prop where
  some' : e.port ≠ []
  digits : ∀ c ∈ e.port, isdigit c = true
  small : decValue e.port ≤ 65535

def Element.Literal (N : InetPton) (e : Element) : Prop :=
  (N.v4 e.addr).isSome ∨ (e.bracketed = true ∧ (N.v6 e.addr).isSome)

structure Element.NoLiteral (N : InetPton) (e : Element) : Prop where
  chars : ∀ c ∈ e.addr, c ≠ comma ∧ c ≠ slash ∧ c ≠ 0
  front : e.bracketed = false → e.addr.head? = some opening → e.addr.getLast? ≠ some closing
  not4 : N.v4 e.addr = none
  not6 : N.v6 e.addr = none

def Element.Trailed (N : InetPton) (e : Element) : Prop :=
  e.bracketed = false ∧ ∃ inner more, e.addr = opening :: (inner ++ closing :: more) ∧
    (∀ c ∈ more, c ≠ colon ∧ c ≠ opening ∧ c ≠ closing) ∧ ((N.v4 inner).isSome ∨ (N.v6 inner).isSome)

def Special (c : UInt8) : Prop := c = comma ∨ c = colon ∨ c = slash ∨ c = opening ∨ c = closing

def Bracket (c : UInt8) : Prop := c = comma ∨ c = slash ∨ c = opening ∨ c = closing

instance (c : UInt8) : Decidable (Special c) := by unfold Special; infer_instance
instance (c : UInt8) : Decidable (Bracket c) := by unfold Bracket; infer_instance

def Ends (rest : Text) : Prop := rest = [] ∨ ∃ more, rest = comma :: more

def cut : Text → Text
  | [] => []
  | _::more => 0 :: more

section scanning
variable {done rest seg : Text} {s : Nat} {p : Option Nat × Option Nat × Option Nat}

theorem loopPlain (plain : ∀ c ∈ seg, ¬ Special c) (first : s ≠ 0) (fourth : s ≠ 4) :
    parseAddrLoop done s p (seg ++ rest) = parseAddrLoop (done ++ seg) s p rest := by
  induction seg generalizing done with
  | nil => simp
  | cons c seg ih =>
    have here := plain c List.mem_cons_self
    simp only [Special,not_or] at here
    obtain ⟨h₁,h₂,h₃,h₄,h₅⟩ := here
    have later := fun x mem => plain x (List.mem_cons_of_mem c mem)
    rw [List.cons_append,parseAddrLoop]
    simp only [h₁,h₂,h₃,h₄,h₅,first,fourth,if_false]
    rw [ih later]
    simp

theorem loopInside (plain : ∀ c ∈ seg, ¬ Bracket c) :
    parseAddrLoop done 5 p (seg ++ rest) = parseAddrLoop (done ++ seg) 5 p rest := by
  induction seg generalizing done with
  | nil => simp
  | cons c seg ih =>
    have here := plain c List.mem_cons_self
    simp only [Bracket,not_or] at here
    obtain ⟨h₁,h₂,h₃,h₄⟩ := here
    have later := fun x mem => plain x (List.mem_cons_of_mem c mem)
    rw [List.cons_append,parseAddrLoop]
    by_cases colon' : c = colon
    · simp only [colon',if_true]
      rw [← colon']
      simp [h₁,ih later]
    · simp [h₁,h₂,h₃,h₄,colon',ih later]

theorem loopOpens : parseAddr (opening::rest) = parseAddrLoop [opening] 4 (some 1,none,none) rest := by
  rw [parseAddr,parseAddrLoop]
  rw [if_neg (by decide),if_neg (by decide),if_neg (by decide),if_pos rfl,if_neg (by decide)]
  rfl

theorem loopCloses : parseAddrLoop done 5 p (closing::rest) = parseAddrLoop (done ++ [0]) 6 p rest := by
  rw [parseAddrLoop]
  rw [if_neg (by decide),if_neg (by decide),if_neg (by decide),if_neg (by decide),if_pos rfl,if_neg (by decide)]

theorem loopColon (state : s = 1 ∨ s = 6) : parseAddrLoop done s p (colon::rest) =
    parseAddrLoop (done ++ [0]) (s + 1) (p.1,some (done.length + 1),p.2.2) rest := by
  rw [parseAddrLoop,if_neg (by decide),if_pos rfl]
  rcases state with rfl | rfl <;> rfl

theorem loopOpened (some' : seg ≠ []) (plain : ∀ c ∈ seg, ¬ Bracket c) :
    parseAddr (opening :: (seg ++ rest)) = parseAddrLoop (opening::seg) 5 (some 1,none,none) rest := by
  cases seg with
  | nil => exact absurd rfl some'
  | cons c seg =>
    have here := plain c List.mem_cons_self
    simp only [Bracket,not_or] at here
    obtain ⟨h₁,h₂,h₃,h₄⟩ := here
    have later := fun x mem => plain x (List.mem_cons_of_mem c mem)
    rw [loopOpens,List.cons_append,parseAddrLoop]
    simp only [h₁,h₂,h₃,h₄,if_false]
    simp [loopInside later]

theorem loopEnds (ends : Ends rest) : parseAddrLoop done s p rest = some ⟨done ++ cut rest,p.1,p.2.1,p.2.2⟩ := by
  rcases ends with rfl | ⟨more,rfl⟩
  · simp [parseAddrLoop,cut]
  · simp [parseAddrLoop,cut]

theorem loopLate {c : UInt8} (late : s = 1 ∨ s = 2 ∨ s = 6 ∨ s = 7) (here : c ≠ comma) :
    parseAddrLoop done s p (c::rest) = none ∨ ∃ done' s' p', (s' = s ∨ s' = 2 ∨ s' = 7) ∧
      parseAddrLoop done s p (c::rest) = parseAddrLoop done' s' p' rest := by
  rw [parseAddrLoop,if_neg here]
  by_cases isColon : c = colon
  · rw [if_pos isColon]
    rcases late with rfl | rfl | rfl | rfl
    · exact .inr ⟨_,2,_,.inr (.inl rfl),rfl⟩
    · exact .inl rfl
    · exact .inr ⟨_,7,_,.inr (.inr rfl),rfl⟩
    · exact .inl rfl
  rw [if_neg isColon]
  by_cases isSlash : c = slash
  · rw [if_pos isSlash]
    rcases late with rfl | rfl | rfl | rfl <;> exact .inr ⟨_,_,_,.inl rfl,rfl⟩
  rw [if_neg isSlash]
  by_cases isOpening : c = opening
  · rw [if_pos isOpening]
    rcases late with rfl | rfl | rfl | rfl <;> exact .inl rfl
  rw [if_neg isOpening]
  by_cases isClosing : c = closing
  · rw [if_pos isClosing]
    rcases late with rfl | rfl | rfl | rfl <;> exact .inl rfl
  · rw [if_neg isClosing]
    rcases late with rfl | rfl | rfl | rfl <;> exact .inr ⟨_,_,_,.inl rfl,rfl⟩

theorem loopNoBracket {x : UInt8} (bracket : x = opening ∨ x = closing) (whole : comma ∉ seg)
    (state : s = 1 ∨ s = 2 ∨ s = 6 ∨ s = 7) : parseAddrLoop done s p (seg ++ x :: rest) = none := by
  induction seg generalizing done s p with
  | nil =>
    rw [List.nil_append,parseAddrLoop]
    rcases bracket with rfl | rfl <;> rcases state with rfl | rfl | rfl | rfl <;> rfl
  | cons c seg ih =>
    rw [List.mem_cons,not_or] at whole
    rw [List.cons_append]
    rcases loopLate state (Ne.symm whole.1) with none' | ⟨done',s',p',next,same⟩
    · exact none'
    · rw [same]
      exact ih whole.2 (by omega)

theorem loopNoColon (whole : comma ∉ seg) (state : s = 2 ∨ s = 7) :
    parseAddrLoop done s p (seg ++ colon :: rest) = none := by
  induction seg generalizing done s p with
  | nil =>
    rw [List.nil_append,parseAddrLoop]
    rcases state with rfl | rfl <;> rfl
  | cons c seg ih =>
    rw [List.mem_cons,not_or] at whole
    rw [List.cons_append]
    have late : s = 1 ∨ s = 2 ∨ s = 6 ∨ s = 7 := by omega
    rcases loopLate late (Ne.symm whole.1) with none' | ⟨done',s',p',next,same⟩
    · exact none'
    · rw [same]
      exact ih whole.2 (by omega)

theorem loopUnclosed (ends : Ends rest) (whole : ∀ c ∈ seg, c ≠ comma ∧ c ≠ slash ∧ c ≠ closing)
    (state : s = 4 ∨ s = 5) :
    ∀ parsed, parseAddrLoop done s p (seg ++ rest) = some parsed → parsed.port = p.2.1 := by
  induction seg generalizing done s with
  | nil =>
    intro parsed is
    rw [List.nil_append,loopEnds ends] at is
    cases Option.some.inj is
    rfl
  | cons c seg ih =>
    obtain ⟨h₁,h₂,h₃⟩ := whole c List.mem_cons_self
    have later := fun x mem => whole x (List.mem_cons_of_mem c mem)
    intro parsed is
    rw [List.cons_append,parseAddrLoop,if_neg h₁] at is
    rcases state with rfl | rfl
    · simp only [h₂,h₃,if_false] at is
      split at is
      · exact ih later (.inr rfl) parsed (by simpa using is)
      · split at is
        · contradiction
        · exact ih later (.inr rfl) parsed (by simpa using is)
    · simp only [h₂,h₃,if_false] at is
      split at is
      · exact ih later (.inr rfl) parsed (by simpa using is)
      · split at is
        · contradiction
        · exact ih later (.inr rfl) parsed (by simpa using is)

end scanning

section elements
variable {N : InetPton} {order : ByteOrder} {config : Config} {action : Int} {rest : Text} {e : Element}

theorem contentStop {a b : Text} (plain : ∀ c ∈ a, c ≠ 0) (stop : charAt b 0 = 0) : content (a ++ b) = a := by
  unfold content
  rw [List.takeWhile_append_of_pos (by simpa using plain)]
  cases b with
  | nil => simp
  | cons c b =>
    have zero : c = 0 := stop
    simp [zero]

theorem cutStops (rest : Text) : charAt (cut rest) 0 = 0 := by
  cases rest <;> rfl

theorem quadChar {c : UInt8} (is : isdigit c = true ∨ c = 46) : ¬ Special c ∧ ¬ Bracket c ∧ c ≠ 0 := by
  have all : ∀ n : Fin 256, isdigit (UInt8.ofNat n) = true ∨ UInt8.ofNat n = 46 →
      ¬ Special (UInt8.ofNat n) ∧ ¬ Bracket (UInt8.ofNat n) ∧ UInt8.ofNat n ≠ 0 := by decide +kernel
  exact forallByte (P := fun c => isdigit c = true ∨ c = 46 → ¬ Special c ∧ ¬ Bracket c ∧ c ≠ 0) all c is

theorem literalChar {c : UInt8} (is : isxdigit c = true ∨ c = 46 ∨ c = 58) : ¬ Bracket c ∧ c ≠ 0 := by
  have all : ∀ n : Fin 256, isxdigit (UInt8.ofNat n) = true ∨ UInt8.ofNat n = 46 ∨ UInt8.ofNat n = 58 →
      ¬ Bracket (UInt8.ofNat n) ∧ UInt8.ofNat n ≠ 0 := by decide +kernel
  exact forallByte (P := fun c => isxdigit c = true ∨ c = 46 ∨ c = 58 → ¬ Bracket c ∧ c ≠ 0) all c is

theorem parsePlain {addr port : Text} (some' : addr ≠ []) (plain : ∀ c ∈ addr, ¬ Special c)
    (plain' : ∀ c ∈ port, ¬ Special c) (ends : Ends rest) :
    parseAddr (addr ++ colon :: (port ++ rest)) =
      some ⟨addr ++ 0 :: (port ++ cut rest),some 0,some (addr.length + 1),none⟩ := by
  cases addr with
  | nil => exact absurd rfl some'
  | cons c addr =>
    have here := plain c List.mem_cons_self
    simp only [Special,not_or] at here
    obtain ⟨h₁,h₂,h₃,h₄,h₅⟩ := here
    have later := fun x mem => plain x (List.mem_cons_of_mem c mem)
    rw [parseAddr,List.cons_append,parseAddrLoop]
    simp only [h₁,h₂,h₃,h₄,h₅,if_false,if_true]
    rw [loopPlain later (by decide) (by decide),loopColon (.inl rfl)]
    rw [loopPlain plain' (by decide) (by decide),loopEnds ends]
    simp

theorem parseBracketed {inner more port : Text} (some' : inner ≠ []) (plain : ∀ c ∈ inner, ¬ Bracket c)
    (plain' : ∀ c ∈ more, ¬ Special c) (plain'' : ∀ c ∈ port, ¬ Special c) (ends : Ends rest) :
    parseAddr (opening :: (inner ++ closing :: (more ++ colon :: (port ++ rest)))) =
      some ⟨opening :: (inner ++ 0 :: (more ++ 0 :: (port ++ cut rest))),some 1,
        some (inner.length + more.length + 3),none⟩ := by
  rw [loopOpened some' plain,loopCloses,loopPlain plain' (by decide) (by decide),loopColon (.inr rfl)]
  rw [loopPlain plain'' (by decide) (by decide),loopEnds ends]
  simp
  omega

theorem firstOf {P : UInt8 → Prop} [DecidablePred P] {cs : Text} (some' : ∃ c ∈ cs, P c) :
    ∃ l x r, cs = l ++ x :: r ∧ P x ∧ ∀ c ∈ l, ¬ P c := by
  obtain ⟨c,mem,holds⟩ := some'
  have hit : (cs.find? (fun c => decide (P c))).isSome := List.find?_isSome.mpr ⟨c,mem,decide_eq_true holds⟩
  obtain ⟨x,found⟩ := Option.isSome_iff_exists.mp hit
  obtain ⟨is,l,r,split,before⟩ := List.find?_eq_some_iff_append.mp found
  exact ⟨l,x,r,split,of_decide_eq_true is,fun a inside => by simpa using before a inside⟩

theorem badPlain {addr tail : Text} (whole : comma ∉ addr) (noSlash : slash ∉ addr)
    (front : addr.head? ≠ some opening)
    (bad : addr = [] ∨ ∃ c ∈ addr, Special c) : parseAddr (addr ++ colon :: tail) = none := by
  cases addr with
  | nil => rfl
  | cons c addr =>
    rw [List.mem_cons,not_or] at whole noSlash
    have notOpen : c ≠ opening := fun same => front (by simp [same])
    rw [parseAddr,List.cons_append,parseAddrLoop,if_neg (Ne.symm whole.1)]
    split
    · rfl
    · rename_i notColon
      rw [if_neg (Ne.symm noSlash.1)]
      split
      · rfl
      · rename_i notClose
        rw [if_pos rfl]
        have inside : ∃ x ∈ addr, Special x := by
          obtain ⟨x,mem,special⟩ := bad.resolve_left (by simp)
          rcases List.mem_cons.mp mem with rfl | later
          · rcases special with h | h | h | h | h
            · exact absurd h.symm whole.1
            · exact absurd h notColon
            · exact absurd h.symm noSlash.1
            · exact absurd h notOpen
            · exact absurd h notClose
          · exact ⟨x,later,special⟩
        obtain ⟨l,x,r,rfl,special,before⟩ := firstOf inside
        simp only [List.mem_append,List.mem_cons,not_or] at whole noSlash
        rw [List.append_assoc l,loopPlain before (by decide) (by decide),List.cons_append]
        rcases special with rfl | rfl | rfl | h | h
        · exact absurd rfl whole.2.2.1
        · rw [loopColon (.inl rfl)]
          exact loopNoColon whole.2.2.2 (.inl rfl)
        · exact absurd rfl noSlash.2.2.1
        · exact @loopNoBracket _ _ [] _ _ _ (.inl h) (by simp) (.inl rfl)
        · exact @loopNoBracket _ _ [] _ _ _ (.inr h) (by simp) (.inl rfl)

theorem badBracketed {addr tail : Text} (whole : comma ∉ addr) (noSlash : slash ∉ addr)
    (bad : addr = [] ∨ ∃ c ∈ addr, Bracket c) : parseAddr (opening :: (addr ++ closing :: tail)) = none := by
  rcases bad with rfl | inside
  · rfl
  · obtain ⟨l,x,r,rfl,bracket,before⟩ := firstOf inside
    simp only [List.mem_append,List.mem_cons,not_or] at whole noSlash
    rw [List.append_assoc l,List.cons_append]
    cases l with
    | nil =>
      rw [loopOpens,List.nil_append]
      rcases bracket with rfl | rfl | rfl | rfl
      · exact absurd rfl whole.2.1
      · exact absurd rfl noSlash.2.1
      · rfl
      · rfl
    | cons c l =>
      rw [loopOpened (by simp) before]
      rcases bracket with rfl | rfl | rfl | rfl
      · exact absurd rfl whole.2.1
      · exact absurd rfl noSlash.2.1
      · rfl
      · rw [loopCloses]
        exact loopNoBracket (.inr rfl) whole.2.2 (.inr (.inr (.inl rfl)))

theorem badMore {inner more tail : Text} (some' : inner ≠ []) (plain : ∀ c ∈ inner, ¬ Bracket c)
    (whole : comma ∉ more) (noSlash : slash ∉ more) (bad : ∃ c ∈ more, Special c) :
    parseAddr (opening :: (inner ++ closing :: (more ++ colon :: tail))) = none := by
  obtain ⟨l,x,r,rfl,special,before⟩ := firstOf bad
  simp only [List.mem_append,List.mem_cons,not_or] at whole noSlash
  rw [List.append_assoc l,List.cons_append,loopOpened some' plain,loopCloses]
  rw [loopPlain before (by decide) (by decide)]
  rcases special with rfl | rfl | rfl | h | h
  · exact absurd rfl whole.2.1
  · rw [loopColon (.inr rfl)]
    exact loopNoColon whole.2.2 (.inr rfl)
  · exact absurd rfl noSlash.2.1
  · exact @loopNoBracket _ _ [] _ _ _ (.inl h) (by simp) (.inr (.inr (.inl rfl)))
  · exact @loopNoBracket _ _ [] _ _ _ (.inr h) (by simp) (.inr (.inr (.inl rfl)))

def Element.number (e : Element) : UInt16 := UInt16.ofNat (decValue e.port)

def Element.address (N : InetPton) (e : Element) : Option In6Addr :=
  match N.v4 e.addr with
  | some a => some a.mapped
  | none => N.v6 e.addr

def Element.nodes (N : InetPton) (order : ByteOrder) (e : Element) (action : Int) : List AddrListNode :=
  let port := (htons order e.number).toUInt32
  match N.v4 e.addr with
  | some a => [⟨6,action,memcpy16 16 a.mapped.bytes,port⟩,⟨4,action,memcpy16 4 a.bytes,port⟩]
  | none => match N.v6 e.addr with
      | none => []
      | some a =>
          if a.isV4Mapped then [⟨4,action,memcpy16 4 a.last4.bytes,port⟩,⟨6,action,memcpy16 16 a.bytes,port⟩]
          else [⟨6,action,memcpy16 16 a.bytes,port⟩]

theorem portPlain (port : e.Port) : (∀ c ∈ e.port, ¬ Special c) ∧ ∀ c ∈ e.port, c ≠ 0 :=
  ⟨fun c mem => (quadChar (.inl (port.digits c mem))).1,fun c mem => (quadChar (.inl (port.digits c mem))).2.2⟩

theorem portNumber (port : e.Port) : uint16 (atoi e.port) = e.number := by
  have small := port.small
  rw [atoiDigits port.digits (by omega)]
  unfold uint16 Element.number
  congr 1
  omega

theorem textBracketed (brackets : e.bracketed = true) :
    e.text ++ rest = opening :: (e.addr ++ closing :: ([] ++ colon :: (e.port ++ rest))) := by
  simp [Element.text,brackets]

theorem textPlain (brackets : e.bracketed = false) : e.text ++ rest = e.addr ++ colon :: (e.port ++ rest) := by
  simp [Element.text,brackets]

def Points (str addr port : Text) : Prop :=
  ∃ b i j, parseAddr str = some ⟨b,some i,some j,none⟩ ∧ textAt b i = addr ∧ textAt b j = port

theorem pointsBracketed {inner more : Text} (port : e.Port) (ends : Ends rest) (some' : inner ≠ [])
    (visible : ∀ c ∈ inner, c ≠ 0) (plain : ∀ c ∈ inner, ¬ Bracket c)
    (plain' : ∀ c ∈ more, ¬ Special c) :
    Points (opening :: (inner ++ closing :: (more ++ colon :: (e.port ++ rest)))) inner e.port := by
  obtain ⟨plain'',visible'⟩ := portPlain port
  have skip : (opening :: (inner ++ 0 :: (more ++ 0 :: (e.port ++ cut rest)))).drop (inner.length + more.length + 3) =
      e.port ++ cut rest := by
    have front : opening :: (inner ++ 0 :: (more ++ 0 :: (e.port ++ cut rest))) =
        (opening :: (inner ++ 0 :: (more ++ [0]))) ++ (e.port ++ cut rest) := by simp
    rw [front]
    refine List.drop_left' ?_
    simp
    omega
  refine ⟨_,_,_,parseBracketed some' plain plain' plain'' ends,contentStop visible rfl,?_⟩
  rw [textAt,skip]
  exact contentStop visible' (cutStops rest)

theorem pointsPlain (port : e.Port) (ends : Ends rest) (some' : e.addr ≠ []) (visible : ∀ c ∈ e.addr, c ≠ 0)
    (plain : ∀ c ∈ e.addr, ¬ Special c) : Points (e.addr ++ colon :: (e.port ++ rest)) e.addr e.port := by
  obtain ⟨plain',visible'⟩ := portPlain port
  have skip : (e.addr ++ 0 :: (e.port ++ cut rest)).drop (e.addr.length + 1) = e.port ++ cut rest := by
    have front : e.addr ++ 0 :: (e.port ++ cut rest) = (e.addr ++ [0]) ++ (e.port ++ cut rest) := by simp
    rw [front]
    exact List.drop_left' (by simp)
  refine ⟨_,_,_,parsePlain some' plain plain' ends,contentStop visible rfl,?_⟩
  rw [textAt,skip]
  exact contentStop visible' (cutStops rest)

theorem setPointed {str : Text} (points : Points str e.addr e.port) (port : e.Port)
    (literal : (N.v4 e.addr).isSome ∨ (N.v6 e.addr).isSome) :
    setAddrList N order config str action =
      (0,{ config with addrList := e.nodes N order action ++ config.addrList }) := by
  obtain ⟨b,i,j,parsed,addr,port'⟩ := points
  unfold setAddrList Element.nodes
  rw [parsed]
  simp only [addr,port',portNumber port]
  cases four : N.v4 e.addr with
  | some a => rfl
  | none =>
    cases six : N.v6 e.addr with
    | none => simp [four,six] at literal
    | some a =>
      simp only
      split <;> rfl

theorem setPointless {str addr port : Text} (points : Points str addr port) (not4 : N.v4 addr = none)
    (not6 : N.v6 addr = none) : setAddrList N order config str action = (-1,config) := by
  obtain ⟨b,i,j,parsed,is,-⟩ := points
  unfold setAddrList
  rw [parsed]
  simp only [is,not4,not6]

theorem literalPlain (literal : e.Literal N) : e.addr ≠ [] ∧ (∀ c ∈ e.addr, c ≠ 0) ∧
    if e.bracketed then ∀ c ∈ e.addr, ¬ Bracket c else ∀ c ∈ e.addr, ¬ Special c := by
  rcases literal with four | ⟨brackets,six⟩
  · obtain ⟨some',chars⟩ := N.plain4 _ four
    refine ⟨some',fun c mem => (quadChar (chars c mem)).2.2,?_⟩
    split
    · exact fun c mem => (quadChar (chars c mem)).2.1
    · exact fun c mem => (quadChar (chars c mem)).1
  · obtain ⟨some',chars⟩ := N.plain6 _ six
    refine ⟨some',fun c mem => (literalChar (chars c mem)).2,?_⟩
    rw [if_pos brackets]
    exact fun c mem => (literalChar (chars c mem)).1

theorem setElement (port : e.Port) (ends : Ends rest) (literal : e.Literal N) :
    setAddrList N order config (e.text ++ rest) action =
      (0,{ config with addrList := e.nodes N order action ++ config.addrList }) := by
  obtain ⟨some',visible,plain⟩ := literalPlain literal
  refine setPointed ?_ port (literal.imp id And.right)
  cases brackets : e.bracketed with
  | true =>
    rw [textBracketed brackets]
    rw [if_pos brackets] at plain
    exact pointsBracketed port ends some' visible plain (by simp)
  | false =>
    rw [textPlain brackets]
    rw [if_neg (by simp [brackets])] at plain
    exact pointsPlain port ends some' visible plain

theorem literalInner {inner : Text} (literal : (N.v4 inner).isSome ∨ (N.v6 inner).isSome) :
    inner ≠ [] ∧ (∀ c ∈ inner, c ≠ 0) ∧ ∀ c ∈ inner, ¬ Bracket c := by
  have plain := literalPlain (e := ⟨true,inner,[]⟩) (literal.imp id (fun six => ⟨rfl,six⟩))
  exact ⟨plain.1,plain.2.1,plain.2.2⟩

theorem setTrailed (port : e.Port) (ends : Ends rest) (bad : e.NoLiteral N) (trailed : e.Trailed N) :
    ∃ config', setAddrList N order config (e.text ++ rest) action = (0,config') := by
  obtain ⟨brackets,inner,more,is,plain,literal⟩ := trailed
  obtain ⟨some',visible,plain'⟩ := literalInner literal
  have plain'' : ∀ c ∈ more, ¬ Special c := by
    intro c mem
    have chars := bad.chars c (by simp [is,mem])
    simp only [Special,not_or]
    exact ⟨chars.1,(plain c mem).1,chars.2.1,(plain c mem).2⟩
  have points := @pointsBracketed rest ⟨true,inner,e.port⟩ inner more ⟨port.some',port.digits,port.small⟩ ends
    some' visible plain' plain''
  have text : e.text ++ rest = opening :: (inner ++ closing :: (more ++ colon :: (e.port ++ rest))) := by
    rw [textPlain brackets,is]
    simp
  rw [text]
  exact ⟨_,@setPointed N order config action ⟨true,inner,e.port⟩ _ points ⟨port.some',
      port.digits,port.small⟩ literal⟩

theorem setUnparsed {str : Text} (fails : parseAddr str = none) :
    setAddrList N order config str action = (-1,config) := by
  unfold setAddrList
  rw [fails]

theorem setOpened {opened : Text} (port : e.Port) (ends : Ends rest) (brackets : e.bracketed = false)
    (chars : ∀ c ∈ opened, c ≠ comma ∧ c ≠ slash ∧ c ≠ 0) (is : e.addr = opening :: opened)
    (other : ¬ e.Trailed N) :
    setAddrList N order config (opening :: (opened ++ colon :: (e.port ++ rest))) action = (-1,config) := by
  by_cases closes : ∃ c ∈ opened, c = closing
  · obtain ⟨inner,x,more,rfl,rfl,-⟩ := firstOf closes
    have inside : ∀ c ∈ inner, c ≠ comma ∧ c ≠ slash ∧ c ≠ 0 := fun c mem => chars c (by simp [mem])
    have after : ∀ c ∈ more, c ≠ comma ∧ c ≠ slash ∧ c ≠ 0 := fun c mem => chars c (by simp [mem])
    have text : opening :: ((inner ++ closing :: more) ++ colon :: (e.port ++ rest)) =
        opening :: (inner ++ closing :: (more ++ colon :: (e.port ++ rest))) := by simp
    rw [text]
    by_cases bad : inner = [] ∨ ∃ c ∈ inner, Bracket c
    · exact setUnparsed (badBracketed (fun mem => (inside _ mem).1 rfl) (fun mem => (inside _ mem).2.1 rfl) bad)
    · rw [not_or] at bad
      have plain : ∀ c ∈ inner, ¬ Bracket c := fun c mem bracket => bad.2 ⟨c,mem,bracket⟩
      by_cases bad' : ∃ c ∈ more, Special c
      · exact setUnparsed (badMore bad.1 plain (fun mem => (after _ mem).1 rfl)
            (fun mem => (after _ mem).2.1 rfl) bad')
      · have plain' : ∀ c ∈ more, ¬ Special c := fun c mem special => bad' ⟨c,mem,special⟩
        have points := pointsBracketed port ends bad.1 (fun c mem => (inside c mem).2.2) plain plain'
        have neither : ¬ ((N.v4 inner).isSome ∨ (N.v6 inner).isSome) := by
          intro literal
          refine other ⟨brackets,inner,more,is,fun c mem => ?_,literal⟩
          have free := plain' c mem
          simp only [Special,not_or] at free
          exact ⟨free.2.1,free.2.2.2⟩
        simp only [not_or,Option.not_isSome_iff_eq_none] at neither
        exact setPointless points neither.1 neither.2
  · have whole : ∀ c ∈ opened ++ colon :: e.port, c ≠ comma ∧ c ≠ slash ∧ c ≠ closing := by
      intro c mem
      rcases List.mem_append.mp mem with front | back
      · exact ⟨(chars c front).1,(chars c front).2.1,fun same => closes ⟨c,front,same⟩⟩
      · rcases List.mem_cons.mp back with rfl | digit
        · decide
        · have free := (portPlain port).1 c digit
          simp only [Special,not_or] at free
          exact ⟨free.1,free.2.2.1,free.2.2.2.2⟩
    have noPort : ∀ parsed, parseAddr (opening :: (opened ++ colon :: (e.port ++ rest))) = some parsed →
        parsed.port = none := by
      intro parsed found
      rw [loopOpens] at found
      have text : opened ++ colon :: (e.port ++ rest) = (opened ++ colon :: e.port) ++ rest := by simp
      rw [text] at found
      exact loopUnclosed ends whole (.inl rfl) parsed found
    unfold setAddrList
    split
    · rfl
    · rename_i b addr port' token found
      have none' := noPort _ found
      contradiction
    · rfl

theorem setRefused (port : e.Port) (ends : Ends rest) (bad : e.NoLiteral N) (other : ¬ e.Trailed N) :
    setAddrList N order config (e.text ++ rest) action = (-1,config) := by
  have whole : comma ∉ e.addr := fun mem => (bad.chars _ mem).1 rfl
  have noSlash : slash ∉ e.addr := fun mem => (bad.chars _ mem).2.1 rfl
  have visible : ∀ c ∈ e.addr, c ≠ 0 := fun c mem => (bad.chars c mem).2.2
  cases brackets : e.bracketed with
  | true =>
    rw [textBracketed brackets]
    by_cases wrong : e.addr = [] ∨ ∃ c ∈ e.addr, Bracket c
    · exact setUnparsed (badBracketed whole noSlash wrong)
    · rw [not_or] at wrong
      have plain : ∀ c ∈ e.addr, ¬ Bracket c := fun c mem bracket => wrong.2 ⟨c,mem,bracket⟩
      exact setPointless (pointsBracketed port ends wrong.1 visible plain (by simp)) bad.not4 bad.not6
  | false =>
    rw [textPlain brackets]
    by_cases opens : e.addr.head? = some opening
    · obtain ⟨opened,is⟩ := List.head?_eq_some_iff.mp opens
      rw [is,List.cons_append]
      exact setOpened port ends brackets (fun c mem => bad.chars c (by simp [is,mem])) is other
    · by_cases wrong : e.addr = [] ∨ ∃ c ∈ e.addr, Special c
      · exact setUnparsed (badPlain whole noSlash opens wrong)
      · rw [not_or] at wrong
        have plain : ∀ c ∈ e.addr, ¬ Special c := fun c mem special => wrong.2 ⟨c,mem,special⟩
        exact setPointless (pointsPlain port ends wrong.1 visible plain) bad.not4 bad.not6

end elements

section lists
variable {N : InetPton} {order : ByteOrder} {config : Config} {action : Int} {es : List (Option Element)}

def listNodes (N : InetPton) (order : ByteOrder) (action : Int) : List (Option Element) → List AddrListNode
  | [] => []
  | none::es => listNodes N order action es
  | some e::es => listNodes N order action es ++ e.nodes N order action

def following (es : List (Option Element)) : Text := if es = [] then [] else comma :: listText es

theorem listTextCons (e : Option Element) (es : List (Option Element)) :
    listText (e::es) = (e.map Element.text).getD [] ++ following es := by
  cases es <;> simp [listText,following]

theorem followingEnds (es : List (Option Element)) : Ends (following es) := by
  cases es with
  | nil => exact .inl rfl
  | cons e es => exact .inr ⟨_,rfl⟩

theorem loopFollowing (s : Nat) : parseSetAddrListLoop N order action s config (following es) =
    parseSetAddrListLoop N order action 0 config (listText es) := by
  cases es with
  | nil => rfl
  | cons e es => simp [following,parseSetAddrListLoop]

theorem loopSkips {seg rest : Text} (whole : comma ∉ seg) :
    parseSetAddrListLoop N order action 1 config (seg ++ rest) = parseSetAddrListLoop N order action 1 config rest := by
  induction seg with
  | nil => rfl
  | cons c seg ih =>
    rw [List.mem_cons,not_or] at whole
    rw [List.cons_append,parseSetAddrListLoop,if_neg (Ne.symm whole.1),if_neg (by decide)]
    exact ih whole.2

theorem textWhole {e : Element} (port : e.Port) (whole : comma ∉ e.addr) : comma ∉ e.text := by
  have ported : comma ∉ e.port := fun mem => (portPlain port).1 _ mem (.inl rfl)
  have others : comma ≠ opening ∧ comma ≠ closing ∧ comma ≠ colon := by decide
  unfold Element.text
  split <;> simp [whole,ported,others]

theorem loopElement {e : Element} {rest : Text} (whole : comma ∉ e.text) :
    parseSetAddrListLoop N order action 0 config (e.text ++ rest) =
      match setAddrList N order config (e.text ++ rest) action with
      | (res,config') => if res < 0 then (-1,config')
          else parseSetAddrListLoop N order action 1 config' rest := by
  cases text : e.text with
  | nil =>
    unfold Element.text at text
    split at text <;> simp at text
  | cons c seg =>
    rw [text,List.mem_cons,not_or] at whole
    rw [List.cons_append,parseSetAddrListLoop,if_neg (Ne.symm whole.1),if_pos rfl]
    simp only [loopSkips whole.2]

theorem literalWhole {e : Element} (literal : e.Literal N) : comma ∉ e.addr := by
  intro mem
  have plain := (literalPlain literal).2.2
  split at plain
  · exact plain _ mem (.inl rfl)
  · exact plain _ mem (.inl rfl)

theorem parseLiterals (each : ∀ e, some e ∈ es → e.Port ∧ e.Literal N) :
    parseSetAddrList N order config (listText es) action =
      (0,{ config with addrList := listNodes N order action es ++ config.addrList }) := by
  unfold parseSetAddrList
  induction es generalizing config with
  | nil => rfl
  | cons e es ih =>
    have later := fun x mem => each x (List.mem_cons_of_mem e mem)
    rw [listTextCons]
    cases e with
    | none =>
      rw [Option.map_none,Option.getD_none,List.nil_append,loopFollowing,ih later]
      rfl
    | some e =>
      obtain ⟨port,literal⟩ := each e List.mem_cons_self
      rw [Option.map_some,Option.getD_some,loopElement (textWhole port (literalWhole literal)),
        setElement port (followingEnds es) literal]
      simp only [Int.lt_irrefl,if_false]
      rw [loopFollowing,ih later]
      simp [listNodes]

def Taken (N : InetPton) (e : Element) : Prop := e.Literal N ∨ (e.NoLiteral N ∧ e.Trailed N)

theorem setTaken {e : Element} (port : e.Port) (taken : Taken N e) : comma ∉ e.addr ∧ ∀ rest config, Ends rest →
    ∃ config', setAddrList N order config (e.text ++ rest) action = (0,config') := by
  rcases taken with literal | ⟨bad,trailed⟩
  · exact ⟨literalWhole literal,fun rest config ends => ⟨_,setElement port ends literal⟩⟩
  · exact ⟨fun mem => (bad.chars _ mem).1 rfl,fun rest config ends => setTrailed port ends bad trailed⟩

theorem parseTaken (each : ∀ e, some e ∈ es → e.Port ∧ Taken N e) :
    (parseSetAddrList N order config (listText es) action).1 = 0 := by
  unfold parseSetAddrList
  induction es generalizing config with
  | nil => rfl
  | cons e es ih =>
    have later := fun x mem => each x (List.mem_cons_of_mem e mem)
    rw [listTextCons]
    cases e with
    | none =>
      rw [Option.map_none,Option.getD_none,List.nil_append,loopFollowing]
      exact ih later
    | some e =>
      obtain ⟨port,taken⟩ := each e List.mem_cons_self
      obtain ⟨whole,sets⟩ := @setTaken N order action e port taken
      obtain ⟨config',set⟩ := sets (following es) config (followingEnds es)
      rw [Option.map_some,Option.getD_some,loopElement (textWhole port whole),set]
      simp only [Int.lt_irrefl,if_false]
      rw [loopFollowing]
      exact ih later

theorem parseRefused (each : ∀ e, some e ∈ es → e.Port ∧ (e.Literal N ∨ e.NoLiteral N))
    (bad : ∃ e, some e ∈ es ∧ ¬ Taken N e) : (parseSetAddrList N order config (listText es) action).1 = -1 := by
  unfold parseSetAddrList
  induction es generalizing config with
  | nil =>
    obtain ⟨e,mem,-⟩ := bad
    contradiction
  | cons e es ih =>
    have later := fun x mem => each x (List.mem_cons_of_mem e mem)
    have next : (∀ x, e = some x → Taken N x) → ∃ x, some x ∈ es ∧ ¬ Taken N x := by
      intro fine
      obtain ⟨x,mem,other⟩ := bad
      rcases List.mem_cons.mp mem with here | inside
      · exact absurd (fine x here.symm) other
      · exact ⟨x,inside,other⟩
    rw [listTextCons]
    cases e with
    | none =>
      rw [Option.map_none,Option.getD_none,List.nil_append,loopFollowing]
      exact ih later (next (by simp))
    | some e =>
      obtain ⟨port,kind⟩ := each e List.mem_cons_self
      by_cases taken : Taken N e
      · obtain ⟨whole,sets⟩ := @setTaken N order action e port taken
        obtain ⟨config',set⟩ := sets (following es) config (followingEnds es)
        rw [Option.map_some,Option.getD_some,loopElement (textWhole port whole),set]
        simp only [Int.lt_irrefl,if_false]
        rw [loopFollowing]
        refine ih later (next ?_)
        intro x same
        cases same
        exact taken
      · have none' : e.NoLiteral N := kind.resolve_left (fun literal => taken (.inl literal))
        have other : ¬ e.Trailed N := fun trailed => taken (.inr ⟨none',trailed⟩)
        have whole : comma ∉ e.addr := fun mem => (none'.chars _ mem).1 rfl
        rw [Option.map_some,Option.getD_some,loopElement (textWhole port whole),
          setRefused port (followingEnds es) none' other]
        rfl

end lists

end HevFsh.CommandLine
