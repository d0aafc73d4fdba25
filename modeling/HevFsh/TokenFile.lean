import HevFsh.TokenManager
import HevFsh.TokenText

/-! hev_fsh_token_manager_reload from the bytes of the tokens file: clearing the
tree, reading line by line, and what a lookup finds afterwards. -/
namespace HevFsh.TokenManager
open SearchTree Protocol CText TokenText

def lineFeed : UInt8 := 10

def first : RbTree Token → Option Token
  | .leaf => none
  | .node _ .leaf v _ => some v
  | .node _ l _ _ => first l

def clearLoop (B : Balancer Token) : Nat → RbTree Token → RbTree Token
  | 0,tree => tree
  | fuel+1,tree => match first tree with
      | none => tree
      | some t => clearLoop B fuel (B.erase tree t)

def clear (B : Balancer Token) (tree : RbTree Token) : RbTree Token :=
  clearLoop B tree.inorder.length tree

def getline (bs : Bytes) : Bytes × Bytes :=
  match bs.dropWhile (fun c => c ≠ lineFeed) with
  | [] => (bs,[])
  | _::rest => (bs.takeWhile (fun c => c ≠ lineFeed) ++ [lineFeed],rest)

def stripped (line : Bytes) : Text :=
  let line := line.set (line.length - 1) 0
  if tokenStrLen < strlen line then line.set tokenStrLen 0 else line

def readLine (B : Balancer Token) (tree : RbTree Token) (line : Bytes) : RbTree Token :=
  let (res,token) := tokenFromString .zero (stripped line)
  if res < 0 then tree else insert B tree token

def readLines (B : Balancer Token) : Nat → RbTree Token → Bytes → RbTree Token
  | 0,tree,_ => tree
  | fuel+1,tree,bs =>
      if bs = [] then tree
      else
        let (line,rest) := getline bs
        readLines B fuel (readLine B tree line) rest

/- `none` is a file that cannot be opened. -/
def reloadFile (B : Balancer Token) (tree : RbTree Token) (file : Option Bytes) : RbTree Token :=
  match file with
  | none => clear B tree
  | some bs => readLines B bs.length (clear B tree) bs

section trees
variable {B : Balancer Token} {tree : RbTree Token}

theorem firstMem {t : Token} (found : first tree = some t) : t ∈ tree.inorder := by
  fun_induction first tree with
  | case1 => contradiction
  | case2 c v r => cases Option.some.inj found; simp [RbTree.inorder]
  | case3 c l v r some' ih => simp [RbTree.inorder,ih found]

theorem firstNone (missing : first tree = none) : tree = .leaf := by
  fun_induction first tree with
  | case1 => rfl
  | case2 c v r => contradiction
  | case3 c l v r some' ih => exact absurd (ih missing) some'

theorem clearEmpty (B : Balancer Token) (tree : RbTree Token) : clear B tree = .leaf := by
  have loop : ∀ fuel tree, tree.inorder.length ≤ fuel → clearLoop B fuel tree = .leaf := by
    intro fuel
    induction fuel with
    | zero =>
      intro tree size
      unfold clearLoop
      cases tree with
      | leaf => rfl
      | node c l v r => simp [RbTree.inorder] at size
    | succ fuel ih =>
      intro tree size
      unfold clearLoop
      cases found : first tree with
      | none => exact firstNone found
      | some t =>
        have mem := firstMem found
        refine ih _ ?_
        rw [B.eraseInorder tree t mem,List.length_erase_of_mem mem]
        omega
  exact loop _ tree (Nat.le_refl _)

theorem insertMem {t x : Token} : x ∈ (insert B tree t).inorder ↔ x = t ∨ x ∈ tree.inorder := by
  rw [insert,B.insertColorInorder,linkMem]

theorem insertSorted {t : Token} (sorted : tree.inorder.Pairwise (· ≤ ·)) :
    (insert B tree t).inorder.Pairwise (· ≤ ·) := by
  rw [insert,B.insertColorInorder]
  refine linkSorted (fun a b c (ab : a ≤ b) (bc : b ≤ c) => le_trans ab bc) ?_ ?_ sorted
  · intro v left
    exact le_of_lt (tokenLt.mpr (of_decide_eq_true left))
  · intro v right
    exact not_lt.mp (fun less => of_decide_eq_false right (tokenLt.mp less))

theorem orderLt {n : Int} : (if n < 0 then Ordering.lt else if 0 < n then .gt else .eq) = .lt ↔ n < 0 := by
  grind

theorem orderGt {n : Int} : (if n < 0 then Ordering.lt else if 0 < n then .gt else .eq) = .gt ↔ 0 < n := by
  grind

theorem findIff (sorted : tree.inorder.Pairwise (· ≤ ·)) {t : Token} :
    find tree t = true ↔ t ∈ tree.inorder := by
  refine ⟨findMem,fun mem => ?_⟩
  unfold find
  rw [Option.isSome_iff_exists]
  have same : memcmp t.bytes t.bytes = 0 := tokenEq.mp rfl
  refine searchComplete ?_ mem (by simp [same])
  refine sorted.imp (fun {a b} le => ?_)
  simp only [orderLt,orderGt]
  simp only [← tokenLt,← tokenGt]
  exact ⟨fun less => lt_of_lt_of_le less le,fun more => lt_of_le_of_lt le more⟩

end trees

section lines

theorem toLowerDigit (c : UInt8) : isxdigit (tolower c) = isxdigit c := by
  have all : ∀ n : Fin 256, isxdigit (tolower (UInt8.ofNat n)) = isxdigit (UInt8.ofNat n) := by
    decide +kernel
  exact forallByte (P := fun c => isxdigit (tolower c) = isxdigit c) all c

theorem toLowerDash (c : UInt8) : tolower c = dash ↔ c = dash := by
  have all : ∀ n : Fin 256, tolower (UInt8.ofNat n) = dash ↔ UInt8.ofNat n = dash := by
    decide +kernel
  exact forallByte (P := fun c => tolower c = dash ↔ c = dash) all c

theorem charAtLower (s : Text) (i : Nat) : charAt (s.map tolower) i = tolower (charAt s i) := by
  unfold charAt
  rcases Nat.lt_or_ge i s.length with inside | outside
  · simp [List.getElem?_eq_getElem inside]
  · simp [outside]
    rfl

theorem wellFormedLower {s : Text} : WellFormed (s.map tolower) ↔ WellFormed s := by
  unfold WellFormed
  simp only [List.length_map,charAtLower,toLowerDigit,toLowerDash]

theorem toStringWell (t : Token) : WellFormed (tokenToString t) := by
  rw [toStringFixed]
  exact fitWellFormed (fixedFit _)

theorem toStringInjective {t u : Token} (same : tokenToString t = tokenToString u) : t = u := by
  have back := roundTrip .zero t
  rw [same,roundTrip] at back
  exact (Prod.mk.inj back).2.symm

theorem fromStringText {token t : Token} {s : Text} :
    tokenFromString token s = (0,t) ↔ (content s).map tolower = tokenToString t := by
  constructor
  · intro read
    have wrote := textEncodes token s (by rw [read])
    rw [read] at wrote
    exact wrote.symm
  · intro text
    have well : WellFormed (content s) := by
      rw [← wellFormedLower,text]
      exact toStringWell t
    have done := (textAccepts token s).mpr well
    have wrote := textEncodes token s done
    rw [text] at wrote
    exact Prod.ext done (toStringInjective wrote)

theorem toStringLength (t : Token) : (tokenToString t).length = tokenStrLen := (toStringWell t).1

theorem textLength {text : Bytes} {t : Token} (is : text.map tolower = tokenToString t) :
    text.length = tokenStrLen := by
  rw [← toStringLength t,← is,List.length_map]

theorem textPlain {text : Bytes} {t : Token} (is : text.map tolower = tokenToString t) {c : UInt8}
    (mem : c ∈ text) : c = dash ∨ isxdigit c = true := by
  have well : WellFormed text := by
    rw [← wellFormedLower,is]
    exact toStringWell t
  obtain ⟨i,inside,rfl⟩ := List.getElem_of_mem mem
  have here := well.2 i (by rwa [well.1] at inside)
  have read : charAt text i = text[i] := by simp [charAt,inside]
  rw [read] at here
  split at here
  · exact .inl here
  · exact .inr here

theorem textUnbroken {text : Bytes} {t : Token} (is : text.map tolower = tokenToString t) :
    lineFeed ∉ text :=
  fun broken => absurd (textPlain is broken) (by decide)

theorem textContent {text : Bytes} {t : Token} (is : text.map tolower = tokenToString t) :
    content text = text := by
  apply contentWhole
  rintro c mem rfl
  exact absurd (textPlain is mem) (by decide)

theorem contentSet {s : Text} {n : Nat} (inside : n < s.length) :
    content (s.set n 0) = (content s).take n := by
  induction s generalizing n with
  | nil => contradiction
  | cons c s ih =>
    cases n with
    | zero => simp [content]
    | succ n =>
      have later := ih (Nat.lt_of_succ_lt_succ inside)
      unfold content at later ⊢
      rw [List.set_cons_succ,List.takeWhile_cons,List.takeWhile_cons]
      split
      · rw [later,List.take_succ_cons]
      · rfl

theorem contentTake (s : Text) (n : Nat) : content (s.take n) = (content s).take n := by
  induction s generalizing n with
  | nil => simp [content]
  | cons c s ih =>
    cases n with
    | zero => simp [content]
    | succ n =>
      have later := ih n
      unfold content at later ⊢
      rw [List.take_succ_cons,List.takeWhile_cons,List.takeWhile_cons]
      split
      · rw [later,List.take_succ_cons]
      · rfl

theorem strlenLe (s : Text) : strlen s ≤ s.length := by
  unfold strlen content
  exact (List.takeWhile_prefix _).length_le

theorem cutContent (text : Text) : content (if tokenStrLen < strlen text then text.set tokenStrLen 0 else text) =
    (content text).take tokenStrLen := by
  split
  · rename_i long
    exact contentSet (lt_of_lt_of_le long (strlenLe _))
  · rename_i short
    exact (List.take_of_length_le (not_lt.mp short)).symm

theorem strippedContent {line : Bytes} (some' : line ≠ []) :
    content (stripped line) = content (line.dropLast.take tokenStrLen) := by
  have size : line.length - 1 < line.length := by
    have := List.length_pos_of_ne_nil some'
    omega
  have last : content (line.set (line.length - 1) 0) = content line.dropLast := by
    rw [contentSet size,List.dropLast_eq_take,contentTake]
  unfold stripped
  simp only
  rw [contentTake,← last,cutContent]

theorem readLineMem {B : Balancer Token} {tree : RbTree Token} {line : Bytes} (some' : line ≠ []) {t : Token} :
    t ∈ (readLine B tree line).inorder ↔
      t ∈ tree.inorder ∨ (line.dropLast.take tokenStrLen).map tolower = tokenToString t := by
  have reads : ∀ u, tokenFromString .zero (stripped line) = (0,u) ↔
      (line.dropLast.take tokenStrLen).map tolower = tokenToString u := by
    intro u
    rw [fromStringText,strippedContent some']
    constructor
    · intro is
      have size := textLength is
      have whole := (List.takeWhile_prefix (fun c : UInt8 => decide (c ≠ 0))
          (l := line.dropLast.take tokenStrLen)).eq_of_length_le
        (by unfold content at size; rw [size]; exact List.length_take_le _ _)
      unfold content at is
      rwa [whole] at is
    · intro is
      rw [textContent is]
      exact is
  unfold readLine
  cases parsed : tokenFromString .zero (stripped line) with
  | mk res token =>
    by_cases done : res = 0
    · subst done
      have named := (reads token).mp parsed
      rw [named]
      simp only [Int.lt_irrefl,if_false,insertMem]
      constructor
      · rintro (rfl | old)
        · exact .inr rfl
        · exact .inl old
      · rintro (old | same)
        · exact .inr old
        · exact .inl (toStringInjective same).symm
    · have bad := textRejects .zero (stripped line) (by rw [parsed]; exact done)
      rw [parsed] at bad
      cases bad
      have none' : ¬ (line.dropLast.take tokenStrLen).map tolower = tokenToString t := by
        intro named
        rw [(reads t).mpr named] at parsed
        cases parsed
      rw [or_iff_left none']
      simp

theorem readLineSorted {B : Balancer Token} {tree : RbTree Token} {line : Bytes}
    (sorted : tree.inorder.Pairwise (· ≤ ·)) : (readLine B tree line).inorder.Pairwise (· ≤ ·) := by
  unfold readLine
  simp only
  split
  · exact sorted
  · exact insertSorted sorted

theorem getlineShape (bs : Bytes) :
    (lineFeed ∉ bs ∧ getline bs = (bs,[])) ∨
    ∃ body rest, lineFeed ∉ body ∧ bs = body ++ lineFeed :: rest ∧ getline bs = (body ++ [lineFeed],rest) := by
  have split' := List.takeWhile_append_dropWhile (p := fun c : UInt8 => decide (c ≠ lineFeed)) (l := bs)
  have free : lineFeed ∉ bs.takeWhile (fun c => decide (c ≠ lineFeed)) := by
    intro mem
    have := List.mem_takeWhile_imp mem
    simp at this
  unfold getline
  cases after : bs.dropWhile (fun c => decide (c ≠ lineFeed)) with
  | nil =>
    rw [after,List.append_nil] at split'
    rw [split'] at free
    exact .inl ⟨free,rfl⟩
  | cons c rest =>
    have feed : c = lineFeed := by
      have stop := List.head?_dropWhile_not (fun c : UInt8 => decide (c ≠ lineFeed)) bs
      rw [after] at stop
      simpa using stop
    rw [after,feed] at split'
    exact .inr ⟨_,rest,free,split'.symm,rfl⟩

end lines

section files

def AtStart (before : Bytes) : Prop := before = [] ∨ ∃ earlier, before = earlier ++ [lineFeed]

def Names (file : Bytes) (t : Token) : Prop :=
  ∃ before text rest, file = before ++ (text ++ rest) ∧ AtStart before ∧ text.map tolower = tokenToString t

def Kept (file : Bytes) (t : Token) : Prop :=
  ∃ before text rest, file = before ++ (text ++ rest) ∧ AtStart before ∧ text.map tolower = tokenToString t ∧
    rest ≠ []

theorem prefixBefore {a b rest : Bytes} (starts : a <+: b ++ lineFeed :: rest) (whole : lineFeed ∉ a) :
    a <+: b := by
  induction b generalizing a with
  | nil =>
    cases a with
    | nil => exact List.prefix_rfl
    | cons c a =>
      have same := (List.cons_prefix_cons.mp starts).1
      exact absurd (same ▸ List.mem_cons_self) whole
  | cons c b ih =>
    cases a with
    | nil => exact List.nil_prefix
    | cons d a =>
      obtain ⟨rfl,tail⟩ := List.cons_prefix_cons.mp starts
      exact List.cons_prefix_cons.mpr ⟨rfl,ih tail (fun mem => whole (List.mem_cons_of_mem _ mem))⟩

theorem firstFeed {body rest earlier after : Bytes} (whole : lineFeed ∉ body)
    (same : body ++ lineFeed :: rest = earlier ++ lineFeed :: after) :
    (earlier = body ∧ after = rest) ∨ ∃ mid, earlier = body ++ lineFeed :: mid ∧
    rest = mid ++ lineFeed :: after := by
  rcases List.append_eq_append_iff.mp same with ⟨mid,here,tail⟩ | ⟨mid,here,tail⟩
  · cases mid with
    | nil =>
      rw [List.append_nil] at here
      exact .inl ⟨here,(List.cons.inj tail).2.symm⟩
    | cons c mid =>
      obtain ⟨rfl,later⟩ := List.cons.inj tail
      exact .inr ⟨mid,here,later⟩
  · cases mid with
    | nil =>
      rw [List.append_nil] at here
      exact .inl ⟨here.symm,(List.cons.inj tail).2⟩
    | cons c mid =>
      obtain ⟨rfl,later⟩ := List.cons.inj tail
      exact absurd (by rw [here]; simp) whole

theorem keptLast {bs : Bytes} {t : Token} (whole : lineFeed ∉ bs) :
    Kept bs t ↔ (bs.dropLast.take tokenStrLen).map tolower = tokenToString t := by
  constructor
  · rintro ⟨before,text,rest,rfl,rfl | ⟨earlier,rfl⟩,is,more⟩
    · rw [List.nil_append,List.dropLast_append_of_ne_nil more,← textLength is,List.take_left' rfl]
      exact is
    · simp at whole
  · intro is
    have size := textLength is
    rw [List.length_take,List.length_dropLast] at size
    refine ⟨[],bs.take tokenStrLen,bs.drop tokenStrLen,by simp,.inl rfl,?_,?_⟩
    · rw [← is,List.dropLast_eq_take,List.take_take,show min tokenStrLen (bs.length - 1) = tokenStrLen from size]
    · intro none'
      have short := List.drop_eq_nil_iff.mp none'
      unfold tokenStrLen at size short
      omega

theorem keptMore {body rest : Bytes} {t : Token} (whole : lineFeed ∉ body) :
    Kept (body ++ lineFeed :: rest) t ↔
      (body.take tokenStrLen).map tolower = tokenToString t ∨ Kept rest t := by
  constructor
  · rintro ⟨before,text,after,same,rfl | ⟨earlier,rfl⟩,is,more⟩
    · refine .inl ?_
      rw [List.nil_append] at same
      have starts : text <+: body := by
        have read : text <+: body ++ lineFeed :: rest := ⟨after,same.symm⟩
        exact prefixBefore read (textUnbroken is)
      obtain ⟨tail,rfl⟩ := starts
      rw [← textLength is,List.take_left' rfl]
      exact is
    · refine .inr ?_
      rw [List.append_assoc,List.singleton_append] at same
      rcases firstFeed whole same with ⟨rfl,rfl⟩ | ⟨mid,rfl,rfl⟩
      · exact ⟨[],text,after,rfl,.inl rfl,is,more⟩
      · exact ⟨mid ++ [lineFeed],text,after,by simp,.inr ⟨mid,rfl⟩,is,more⟩
  · rintro (is | ⟨before,text,after,rfl,start,is,more⟩)
    · refine ⟨[],body.take tokenStrLen,body.drop tokenStrLen ++ lineFeed :: rest,?_,.inl rfl,is,by simp⟩
      rw [List.nil_append,← List.append_assoc,List.take_append_drop]
    · refine ⟨body ++ lineFeed :: before,text,after,by simp,.inr ?_,is,more⟩
      cases start with
      | inl first => exact ⟨body,by rw [first]⟩
      | inr later =>
        obtain ⟨earlier,rfl⟩ := later
        exact ⟨body ++ lineFeed :: earlier,by simp⟩

theorem readLinesMem {B : Balancer Token} {fuel : Nat} {bs : Bytes} {tree : RbTree Token} {t : Token}
    (enough : bs.length ≤ fuel) :
    t ∈ (readLines B fuel tree bs).inorder ↔ t ∈ tree.inorder ∨ Kept bs t := by
  have nothing : ¬ Kept [] t := by
    rintro ⟨before,text,rest,empty,-,-,more⟩
    simp at empty
    exact more empty.2.2
  induction fuel generalizing bs tree with
  | zero =>
    cases List.eq_nil_of_length_eq_zero (Nat.le_zero.mp enough)
    rw [readLines,or_iff_left nothing]
  | succ fuel ih =>
    unfold readLines
    split
    · rename_i empty
      rw [empty,or_iff_left nothing]
    · rename_i some'
      rcases getlineShape bs with ⟨whole,line⟩ | ⟨body,rest,whole,rfl,line⟩
      · rw [line]
        simp only
        have over' : ([] : Bytes).length ≤ fuel := Nat.zero_le _
        refine (ih over').trans ?_
        rw [readLineMem some',keptLast whole,or_iff_left nothing]
      · have shorter : rest.length ≤ fuel := by
          rw [List.length_append,List.length_cons] at enough
          omega
        rw [line]
        simp only
        refine (ih shorter).trans ?_
        rw [readLineMem (by simp),List.dropLast_concat,keptMore whole,or_assoc]

theorem readLinesSorted {B : Balancer Token} {fuel : Nat} {bs : Bytes} {tree : RbTree Token}
    (sorted : tree.inorder.Pairwise (· ≤ ·)) : (readLines B fuel tree bs).inorder.Pairwise (· ≤ ·) := by
  induction fuel generalizing bs tree with
  | zero => exact sorted
  | succ fuel ih =>
    unfold readLines
    split
    · exact sorted
    · exact ih (readLineSorted sorted)

theorem findReloaded (B : Balancer Token) (tree : RbTree Token) (bs : Bytes) (t : Token) :
    find (reloadFile B tree (some bs)) t = true ↔ Kept bs t := by
  unfold reloadFile
  rw [clearEmpty,findIff (readLinesSorted List.Pairwise.nil),readLinesMem (Nat.le_refl _)]
  simp [RbTree.inorder]

theorem findUnopened (B : Balancer Token) (tree : RbTree Token) (t : Token) :
    find (reloadFile B tree none) t = false := by
  unfold reloadFile
  rw [clearEmpty]
  rfl

theorem keptNames {bs : Bytes} {t : Token} (kept : Kept bs t) : Names bs t := by
  obtain ⟨before,text,rest,whole,start,is,-⟩ := kept
  exact ⟨before,text,rest,whole,start,is⟩

theorem keptEarlier {before text : Bytes} {t u : Token} (start : AtStart before)
    (is : text.map tolower = tokenToString t) : Kept (before ++ text) u ↔ Names before u := by
  constructor
  · rintro ⟨before',text',rest,same,start',is',more⟩
    have size := textLength is
    have size' := textLength is'
    have lengths := congrArg List.length same
    have short := List.length_pos_of_ne_nil more
    simp only [List.length_append] at lengths
    cases start with
    | inl none' =>
      rw [none',List.length_nil] at lengths
      omega
    | inr later =>
      obtain ⟨earlier,rfl⟩ := later
      rw [List.append_assoc,List.singleton_append] at same
      have inside : before' <+: earlier := by
        refine List.prefix_of_prefix_length_le ⟨_,same.symm⟩ (List.prefix_append _ _) ?_
        simp only [List.length_append,List.length_singleton] at lengths
        omega
      obtain ⟨mid,rfl⟩ := inside
      rw [List.append_assoc,List.append_cancel_left_eq] at same
      have read : text' <+: mid ++ lineFeed :: text := ⟨rest,same.symm⟩
      obtain ⟨tail,rfl⟩ := prefixBefore read (textUnbroken is')
      exact ⟨before',text',tail ++ [lineFeed],by simp,start',is'⟩
  · rintro ⟨before',text',rest,rfl,start',is'⟩
    refine ⟨before',text',rest ++ text,by simp,start',is',?_⟩
    intro none'
    have size := textLength is
    rw [(List.append_eq_nil_iff.mp none').2] at size
    contradiction

def Reloads (tree : RbTree Token) (file : Option Bytes) : Prop :=
  ∀ t, find tree t = true ↔ ∃ bs, file = some bs ∧ Names bs t

theorem reloadReads (B : Balancer Token) (tree : RbTree Token) (file : Option Bytes) :
    Reloads (reloadFile B tree file) file ↔
      ∀ before text t, file = some (before ++ text) → AtStart before →
        text.map tolower = tokenToString t → Names before t := by
  cases file with
  | none => simp [Reloads,findUnopened]
  | some bs =>
    constructor
    · intro reloads before text t here start is
      cases Option.some.inj here
      have named := (reloads t).mpr ⟨_,rfl,before,text,[],by simp,start,is⟩
      rw [findReloaded,keptEarlier start is] at named
      exact named
    · intro ends t
      rw [findReloaded]
      constructor
      · intro kept
        exact ⟨bs,rfl,keptNames kept⟩
      · rintro ⟨file,same,before,text,rest,here,start,is⟩
        cases Option.some.inj same
        cases rest with
        | nil =>
          rw [List.append_nil] at here
          cases here
          exact (keptEarlier start is).mpr (ends before text t rfl start is)
        | cons c rest => exact ⟨before,text,c::rest,here,start,is,by simp⟩

def unterminated : Bytes := tokenToString .zero

theorem lastLineLost : ¬ ∀ (B : Balancer Token) (tree : RbTree Token) (file : Option Bytes),
    (∀ bs, file = some bs → 0 ∉ bs) → Reloads (reloadFile B tree file) file := by
  intro always
  have plain : ∀ bs, some unterminated = some bs → 0 ∉ bs := by
    intro bs same
    cases same
    decide
  have reloads := always (.plain Token) .leaf (some unterminated) plain .zero
  have named : ∃ bs, some unterminated = some bs ∧ Names bs .zero :=
    ⟨unterminated,rfl,[],unterminated,[],by simp,.inl rfl,by decide⟩
  have missing : find (reloadFile (.plain Token) .leaf (some unterminated)) .zero = false := by decide
  rw [reloads.mpr named] at missing
  contradiction

end files

end HevFsh.TokenManager
