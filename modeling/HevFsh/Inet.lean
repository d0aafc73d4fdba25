import HevFsh.CText

/-! Internet addresses as their bytes in network order, and inet_pton. Whatever
parses literals is a parameter of what uses it; `inetPton` is the usual one. -/
namespace HevFsh.Inet
open CText

structure In4Addr where
  bytes : List UInt8
  size : bytes.length = 4
  deriving DecidableEq

structure In6Addr where
  bytes : List UInt8
  size : bytes.length = 16
  deriving DecidableEq

def In6Addr.zero : In6Addr := ⟨[0,0,0,0,0,0,0,0,0,0,0,0,0,0,0,0],rfl⟩

def mappedHead : List UInt8 := List.replicate 10 0 ++ [255,255]

def In4Addr.mapped (a : In4Addr) : In6Addr := ⟨mappedHead ++ a.bytes,by simp [mappedHead,a.size]⟩

def In6Addr.isV4Mapped (a : In6Addr) : Bool := a.bytes.take 12 = mappedHead

def In6Addr.last4 (a : In6Addr) : In4Addr := ⟨a.bytes.drop 12,by simp [a.size]⟩

def In6Addr.first4 (a : In6Addr) : In4Addr := ⟨a.bytes.take 4,by simp [a.size]⟩

def In6Addr.setFirst4 (a : In6Addr) (front : In4Addr) : In6Addr :=
  ⟨front.bytes ++ a.bytes.drop 4,by simp [front.size,a.size]⟩

theorem mappedIff {a : In4Addr} {b : In6Addr} : a.mapped = b ↔ b.isV4Mapped = true ∧ b.last4 = a := by
  obtain ⟨as,four⟩ := a
  obtain ⟨bs,sixteen⟩ := b
  simp only [In4Addr.mapped,In6Addr.isV4Mapped,In6Addr.last4,In6Addr.mk.injEq,In4Addr.mk.injEq,decide_eq_true_eq]
  constructor
  · rintro rfl
    exact ⟨List.take_left' rfl,List.drop_left' rfl⟩
  · rintro ⟨front,rfl⟩
    rw [← front,List.take_append_drop]

theorem mappedInjective {a b : In4Addr} : a.mapped = b.mapped ↔ a = b := by
  rw [mappedIff]
  have front : b.mapped.isV4Mapped = true := (mappedIff.mp (rfl : b.mapped = b.mapped)).1
  have back : b.mapped.last4 = b := (mappedIff.mp (rfl : b.mapped = b.mapped)).2
  rw [front,back]
  exact ⟨fun h => h.2.symm,fun h => ⟨rfl,h.symm⟩⟩

structure InetPton where
  v4 : Text → Option In4Addr
  v6 : Text → Option In6Addr
  left4 : Text → In4Addr → In4Addr
  left6 : Text → In6Addr → In6Addr
  plain4 : ∀ s, (v4 s).isSome → s ≠ [] ∧ ∀ c ∈ s, isdigit c = true ∨ c = 46
  plain6 : ∀ s, (v6 s).isSome → s ≠ [] ∧ ∀ c ∈ s, isxdigit c = true ∨ c = 46 ∨ c = 58

section literals

def pieces (sep : UInt8) : Text → List Text
  | [] => [[]]
  | c::rest => if c = sep then [] :: pieces sep rest else match pieces sep rest with
      | [] => [[c]]
      | p::ps => (c::p) :: ps

def octet (s : Text) : Option UInt8 :=
  if s ≠ [] ∧ s.length ≤ 3 ∧ s.all isdigit ∧ (s.length = 1 ∨ charAt s 0 ≠ 48) ∧ decValue s ≤ 255 then
    some (UInt8.ofNat (decValue s))
  else none

def inetPton4 (s : Text) : Option In4Addr :=
  match (pieces 46 s).mapM octet with
  | some [a,b,c,d] => some ⟨[a,b,c,d],rfl⟩
  | _ => none

def group (s : Text) : Option (List UInt8) :=
  if s ≠ [] ∧ s.length ≤ 4 ∧ s.all isxdigit then
    some [UInt8.ofNat (hexValue s / 256),UInt8.ofNat (hexValue s % 256)]
  else none

def groups (quad : Bool) : List Text → Option (List UInt8)
  | [] => some []
  | [p] => match group p with
      | some g => some g
      | none => if quad then (inetPton4 p).map In4Addr.bytes else none
  | p::ps => do
      let g ← group p
      let gs ← groups quad ps
      some (g ++ gs)

def gap : Text → Option (Text × Text)
  | [] => none
  | c::rest => if c = 58 ∧ charAt rest 0 = 58 then some ([],rest.drop 1) else (gap rest).map (fun (l,r) => (c::l,r))

def groupsOf (quad : Bool) (s : Text) : Option (List UInt8) := if s = [] then some [] else groups quad (pieces 58 s)

def in6Addr (bs : List UInt8) : Option In6Addr := if size : bs.length = 16 then some ⟨bs,size⟩ else none

def inetPton6 (s : Text) : Option In6Addr :=
  match gap s with
  | none => if s = [] then none else (groupsOf true s).bind in6Addr
  | some (l,r) => do
      let left ← groupsOf false l
      let right ← groupsOf true r
      if left.length + right.length ≤ 14 then
        in6Addr (left ++ List.replicate (16 - left.length - right.length) 0 ++ right)
      else none

theorem piecesMem (sep : UInt8) {c : UInt8} {s : Text} (mem : c ∈ s) :
    c = sep ∨ ∃ p ∈ pieces sep s, c ∈ p := by
  induction s with
  | nil => contradiction
  | cons d rest ih =>
    unfold pieces
    split
    · rename_i same
      rcases List.mem_cons.mp mem with rfl | later
      · exact .inl same
      · rcases ih later with is | ⟨p,here,inside⟩
        · exact .inl is
        · exact .inr ⟨p,List.mem_cons_of_mem _ here,inside⟩
    · split
      · rename_i none'
        rcases List.mem_cons.mp mem with rfl | later
        · exact .inr ⟨[c],by simp,by simp⟩
        · rcases ih later with is | ⟨p,here,inside⟩
          · exact .inl is
          · rw [none'] at here
            contradiction
      · rename_i q qs split'
        rcases List.mem_cons.mp mem with rfl | later
        · exact .inr ⟨c :: q,by simp,by simp⟩
        · rcases ih later with is | ⟨p,here,inside⟩
          · exact .inl is
          · rw [split'] at here
            rcases List.mem_cons.mp here with rfl | other
            · exact .inr ⟨d :: p,by simp,by simp [inside]⟩
            · exact .inr ⟨p,List.mem_cons_of_mem _ other,inside⟩

theorem octetDigits {s : Text} {b : UInt8} (is : octet s = some b) : ∀ c ∈ s, isdigit c = true := by
  unfold octet at is
  split at is <;> try contradiction
  rename_i shape
  exact List.all_eq_true.mp shape.2.2.1

theorem allOctets {ps : List Text} {bs : List UInt8} (is : ps.mapM octet = some bs) :
    ∀ p ∈ ps, ∃ b, octet p = some b := by
  induction ps generalizing bs with
  | nil => simp
  | cons q qs ih =>
    rw [List.mapM_cons] at is
    simp only [bind,Option.bind_eq_some_iff] at is
    obtain ⟨b,first,rest,later,-⟩ := is
    intro p mem
    rcases List.mem_cons.mp mem with rfl | other
    · exact ⟨b,first⟩
    · exact ih later p other

theorem pton4Plain {s : Text} (ok : (inetPton4 s).isSome) : s ≠ [] ∧ ∀ c ∈ s, isdigit c = true ∨ c = 46 := by
  unfold inetPton4 at ok
  split at ok <;> try contradiction
  rename_i a b c d parsed
  constructor
  · rintro rfl
    simp [pieces,octet] at parsed
  · intro x mem
    rcases piecesMem 46 mem with dot | ⟨p,here,inside⟩
    · exact .inr dot
    · obtain ⟨byte,is⟩ := allOctets parsed p here
      exact .inl (octetDigits is x inside)

theorem digitHex {c : UInt8} (digit : isdigit c = true) : isxdigit c = true := by
  have all : ∀ n : Fin 256, isdigit (UInt8.ofNat n) = true → isxdigit (UInt8.ofNat n) = true := by decide +kernel
  exact forallByte (P := fun c => isdigit c = true → isxdigit c = true) all c digit

theorem groupHex {s : Text} {g : List UInt8} (is : group s = some g) : ∀ c ∈ s, isxdigit c = true := by
  unfold group at is
  split at is <;> try contradiction
  rename_i shape
  exact List.all_eq_true.mp shape.2.2

theorem groupsPlain {quad : Bool} {ps : List Text} {bs : List UInt8} (is : groups quad ps = some bs) :
    ∀ p ∈ ps, ∀ c ∈ p, isxdigit c = true ∨ c = 46 := by
  fun_induction groups quad ps generalizing bs with
  | case1 => simp
  | case2 p g found =>
    intro q here c inside
    cases List.mem_singleton.mp here
    exact .inl (groupHex found c inside)
  | case3 p none' isQuad =>
    intro q here c inside
    cases List.mem_singleton.mp here
    have quad4 : (inetPton4 p).isSome := by
      rw [← Option.isSome_map,is]
      rfl
    exact ((pton4Plain quad4).2 c inside).imp digitHex id
  | case4 p none' noQuad => contradiction
  | case5 p ps more ih =>
    simp only [bind,Option.bind_eq_some_iff] at is
    obtain ⟨g,first,gs,later,-⟩ := is
    intro q here c inside
    rcases List.mem_cons.mp here with rfl | other
    · exact .inl (groupHex first c inside)
    · exact ih later q other c inside

theorem groupsOfPlain {quad : Bool} {s : Text} {bs : List UInt8} (is : groupsOf quad s = some bs) :
    ∀ c ∈ s, isxdigit c = true ∨ c = 46 ∨ c = 58 := by
  intro c mem
  unfold groupsOf at is
  split at is
  · rename_i empty
    rw [empty] at mem
    contradiction
  · rcases piecesMem 58 mem with colon | ⟨p,here,inside⟩
    · exact .inr (.inr colon)
    · exact (groupsPlain is p here c inside).imp id .inl

theorem gapMem {s l r : Text} (found : gap s = some (l,r)) :
    s ≠ [] ∧ ∀ c ∈ s, c ∈ l ∨ c = 58 ∨ c ∈ r := by
  induction s generalizing l with
  | nil => contradiction
  | cons d rest ih =>
    refine ⟨by simp,?_⟩
    intro c mem
    unfold gap at found
    split at found
    · rename_i double
      cases Option.some.inj found
      rcases List.mem_cons.mp mem with rfl | later
      · exact .inr (.inl double.1)
      · cases rest with
        | nil => contradiction
        | cons x rest =>
          rcases List.mem_cons.mp later with rfl | more
          · exact .inr (.inl double.2)
          · exact .inr (.inr more)
    · obtain ⟨⟨l',r'⟩,deeper,same⟩ := Option.map_eq_some_iff.mp found
      cases same
      rcases List.mem_cons.mp mem with rfl | later
      · exact .inl List.mem_cons_self
      · exact ((ih deeper).2 c later).imp (List.mem_cons_of_mem _) id

theorem pton6Plain {s : Text} (ok : (inetPton6 s).isSome) :
    s ≠ [] ∧ ∀ c ∈ s, isxdigit c = true ∨ c = 46 ∨ c = 58 := by
  unfold inetPton6 at ok
  split at ok
  · split at ok <;> try contradiction
    rename_i some'
    obtain ⟨a,is⟩ := Option.isSome_iff_exists.mp ok
    obtain ⟨bs,parsed,-⟩ := Option.bind_eq_some_iff.mp is
    exact ⟨some',groupsOfPlain parsed⟩
  · rename_i l r found
    obtain ⟨a,is⟩ := Option.isSome_iff_exists.mp ok
    simp only [bind,Option.bind_eq_some_iff] at is
    obtain ⟨left,before,right,after,-⟩ := is
    refine ⟨(gapMem found).1,?_⟩
    intro c mem
    rcases (gapMem found).2 c mem with front | colon | back
    · exact groupsOfPlain before c front
    · exact .inr (.inr colon)
    · exact groupsOfPlain after c back

def inetPton : InetPton where
  v4 := inetPton4
  v6 := inetPton6
  left4 _ a := a
  left6 _ a := a
  plain4 _ := pton4Plain
  plain6 _ := pton6Plain

end literals

end HevFsh.Inet
