import Mathlib.Data.List.Basic
import Mathlib.Data.List.Nodup

/-! Binary search trees whose balancing is left to the environment. Nodes with
equal keys are allowed on either side, so only the in-order sequence is used. -/
namespace HevFsh.SearchTree

inductive RbTree (α : Type) where
  | leaf
  | node (red : Bool) (left : RbTree α) (value : α) (right : RbTree α)
  deriving DecidableEq, Repr

def RbTree.inorder {α : Type} : RbTree α → List α
  | .leaf => []
  | .node _ l v r => l.inorder ++ v :: r.inorder

/- The descent of a lookup: `cmp v` compares the sought key with that of `v`. -/
def RbTree.search {α : Type} (cmp : α → Ordering) : RbTree α → Option α
  | .leaf => none
  | .node _ l v r => match cmp v with
    | .lt => l.search cmp
    | .gt => r.search cmp
    | .eq => some v

/- The descent of an insertion: left exactly where `before` holds, to a new red leaf. -/
def RbTree.link {α : Type} (before : α → Bool) (x : α) : RbTree α → RbTree α
  | .leaf => .node true .leaf x .leaf
  | .node c l v r =>
      if before v then .node c (l.link before x) v r else .node c l v (r.link before x)

section search
variable {α : Type} {cmp : α → Ordering} {t : RbTree α}

theorem searchSound {x : α} (found : t.search cmp = some x) : x ∈ t.inorder ∧ cmp x = .eq := by
  induction t with
  | leaf => simp [RbTree.search] at found
  | node c l v r left right =>
    simp only [RbTree.search] at found
    split at found
    · have h := left found
      exact ⟨by simp [RbTree.inorder,h.1],h.2⟩
    · have h := right found
      exact ⟨by simp [RbTree.inorder,h.1],h.2⟩
    · rename_i same
      cases Option.some.inj found
      exact ⟨by simp [RbTree.inorder],same⟩

/- `cmp` never turns back along the in-order sequence. -/
def Ordered (cmp : α → Ordering) (xs : List α) : Prop :=
  xs.Pairwise (fun a b => (cmp a = .lt → cmp b = .lt) ∧ (cmp b = .gt → cmp a = .gt))

theorem searchComplete {x : α} (sorted : Ordered cmp t.inorder) (mem : x ∈ t.inorder)
    (same : cmp x = .eq) : ∃ y, t.search cmp = some y := by
  induction t with
  | leaf => simp [RbTree.inorder] at mem
  | node c l v r left right =>
    simp only [RbTree.inorder,Ordered,List.pairwise_append,List.pairwise_cons] at sorted
    obtain ⟨sl,⟨vr,sr⟩,cross⟩ := sorted
    have side : x ∈ l.inorder ∨ x = v ∨ x ∈ r.inorder := by
      simpa only [RbTree.inorder,List.mem_append,List.mem_cons] using mem
    simp only [RbTree.search]
    cases h : cmp v with
    | lt =>
      rcases side with inside | rfl | inside
      · exact left sl inside
      · simp [h] at same
      · simp [(vr x inside).1 h] at same
    | gt =>
      rcases side with inside | rfl | inside
      · simp [(cross x inside v (by simp)).2 h] at same
      · simp [h] at same
      · exact right sr inside
    | eq => exact ⟨v,rfl⟩

theorem searchNone (sorted : Ordered cmp t.inorder) (absent : t.search cmp = none) :
    ∀ x ∈ t.inorder, cmp x ≠ .eq := by
  intro x mem same
  obtain ⟨y,found⟩ := searchComplete sorted mem same
  rw [absent] at found
  contradiction

end search

section link
variable {α : Type} {before : α → Bool} {x : α}

theorem linkSplits (before : α → Bool) (x : α) (t : RbTree α) :
    ∃ pre post, t.inorder = pre ++ post ∧ (t.link before x).inorder = pre ++ x :: post := by
  induction t with
  | leaf => exact ⟨[],[],rfl,rfl⟩
  | node c l v r left right =>
    simp only [RbTree.link]
    split
    · obtain ⟨pre,post,whole,linked⟩ := left
      exact ⟨pre,post ++ v :: r.inorder,by simp [RbTree.inorder,whole],by simp [RbTree.inorder,linked]⟩
    · obtain ⟨pre,post,whole,linked⟩ := right
      exact ⟨l.inorder ++ v :: pre,post,by simp [RbTree.inorder,whole],by simp [RbTree.inorder,linked]⟩

theorem linkMem {t : RbTree α} {y : α} : y ∈ (t.link before x).inorder ↔ y = x ∨ y ∈ t.inorder := by
  obtain ⟨pre,post,whole,linked⟩ := linkSplits before x t
  simp only [linked,whole,List.mem_append,List.mem_cons]
  tauto

theorem linkPerm (before : α → Bool) (x : α) (t : RbTree α) : (t.link before x).inorder.Perm (x :: t.inorder) := by
  obtain ⟨pre,post,whole,linked⟩ := linkSplits before x t
  rw [linked,whole]
  exact List.perm_middle

theorem linkNodup {t : RbTree α} (unique : t.inorder.Nodup) (fresh : x ∉ t.inorder) :
    (t.link before x).inorder.Nodup := by
  obtain ⟨pre,post,whole,linked⟩ := linkSplits before x t
  rw [linked,List.nodup_middle,← whole]
  exact List.nodup_cons.mpr ⟨fresh,unique⟩

theorem linkSorted {le : α → α → Prop} (trans : ∀ a b c, le a b → le b c → le a c)
    (less : ∀ v, before v = true → le x v) (more : ∀ v, before v = false → le v x)
    {t : RbTree α} (sorted : t.inorder.Pairwise le) : (t.link before x).inorder.Pairwise le := by
  induction t with
  | leaf => simp [RbTree.link,RbTree.inorder]
  | node c l v r left right =>
    simp only [RbTree.inorder,List.pairwise_append,List.pairwise_cons] at sorted
    obtain ⟨sl,⟨vr,sr⟩,cross⟩ := sorted
    simp only [RbTree.link]
    split
    · rename_i goLeft
      simp only [RbTree.inorder,List.pairwise_append,List.pairwise_cons]
      refine ⟨left sl,⟨vr,sr⟩,?_⟩
      intro a ha b hb
      rcases linkMem.mp ha with rfl | inside
      · rcases List.mem_cons.mp hb with rfl | hb
        · exact less b goLeft
        · exact trans a v b (less v goLeft) (vr b hb)
      · exact cross a inside b hb
    · rename_i goRight
      have vx : le v x := more v (by simpa using goRight)
      simp only [RbTree.inorder,List.pairwise_append,List.pairwise_cons]
      refine ⟨sl,⟨?_,right sr⟩,?_⟩
      · intro b hb
        rcases linkMem.mp hb with rfl | inside
        · exact vx
        · exact vr b inside
      · intro a ha b hb
        have av : le a v := cross a ha v (by simp)
        rcases List.mem_cons.mp hb with rfl | hb
        · exact av
        · rcases linkMem.mp hb with rfl | inside
          · exact trans a v b av vx
          · exact cross a ha b (by simp [inside])

end link

/- What a balancing library is relied on for: recolouring and rotation after a
link keep the in-order sequence, and erasing takes exactly one node out of it. -/
structure Balancer (α : Type) [DecidableEq α] where
  insertColor : RbTree α → α → RbTree α
  erase : RbTree α → α → RbTree α
  insertColorInorder : ∀ t x, (insertColor t x).inorder = t.inorder
  eraseInorder : ∀ t x, x ∈ t.inorder → (erase t x).inorder = t.inorder.erase x

def RbTree.blacken {α : Type} : RbTree α → RbTree α
  | .leaf => .leaf
  | .node _ l v r => .node false l v r

def RbTree.graft {α : Type} (l : RbTree α) : RbTree α → RbTree α
  | .leaf => l
  | .node c l' v r => .node c (l.graft l') v r

def RbTree.remove {α : Type} [DecidableEq α] (x : α) : RbTree α → RbTree α
  | .leaf => .leaf
  | .node c l v r =>
      if x ∈ l.inorder then .node c (l.remove x) v r
      else if v = x then l.graft r
      else .node c l v (r.remove x)

theorem blackenInorder {α : Type} (t : RbTree α) : t.blacken.inorder = t.inorder := by
  cases t <;> rfl

theorem graftInorder {α : Type} (l r : RbTree α) : (l.graft r).inorder = l.inorder ++ r.inorder := by
  induction r with
  | leaf => simp [RbTree.graft,RbTree.inorder]
  | node c l' v r left right => simp [RbTree.graft,RbTree.inorder,left]

theorem removeInorder {α : Type} [DecidableEq α] (x : α) (t : RbTree α) :
    (t.remove x).inorder = t.inorder.erase x := by
  induction t with
  | leaf => rfl
  | node c l v r left right =>
    simp only [RbTree.remove]
    split
    · rename_i inside
      simp only [RbTree.inorder,left,List.erase_append_left _ inside]
    · rename_i outside
      split
      · rename_i same
        simp [graftInorder,RbTree.inorder,List.erase_append_right _ outside,same]
      · rename_i other
        simp [RbTree.inorder,List.erase_append_right _ outside,other,right]

def Balancer.plain (α : Type) [DecidableEq α] : Balancer α where
  insertColor t _ := t.blacken
  erase t x := (t.remove x).blacken
  insertColorInorder t _ := blackenInorder t
  eraseInorder t x _ := by rw [blackenInorder,removeInorder]

end HevFsh.SearchTree
