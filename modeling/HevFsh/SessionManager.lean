import HevFsh.SearchTree
import HevFsh.Protocol
import Mathlib.Data.Prod.Lex

/-! Session objects and hev-fsh-session-manager: the tree of registered sessions,
searched by type and token as they stand in the sessions themselves. -/
namespace HevFsh.SessionManager
open SearchTree Protocol

/- A session is named by the order in which its connection was accepted. The
same number names that connection, whatever descriptor it is reached by. -/
abbrev Sid := Nat

inductive SessionType where
  | null | forward | connect | splice | closed
  deriving DecidableEq, Repr

def SessionType.code : SessionType → Nat
  | .null => 0
  | .forward => 1
  | .connect => 2
  | .splice => 3
  | .closed => 4

theorem codeInjective {a b : SessionType} (same : a.code = b.code) : a = b := by
  cases a <;> cases b <;> first | rfl | (simp [SessionType.code] at same)

structure Session where
  live : Bool
  clientFd : Int
  remoteFd : Int
  type : SessionType
  isMgr : Bool
  isTempToken : Bool
  token : Token
  timeout : UInt32
  wlock : Option Sid
  deriving DecidableEq, Repr

abbrev Key := ℕ ×ₗ Token

def keyOf (type : SessionType) (token : Token) : Key := toLex (type.code,token)

def Session.key (s : Session) : Key := keyOf s.type s.token

def goesLeft (s t : Session) : Bool :=
  if s.type.code < t.type.code then true
  else if t.type.code < s.type.code then false
  else if memcmp s.token.bytes t.token.bytes < 0 then true
  else false

def compareKey (type : SessionType) (token : Token) (t : Session) : Ordering :=
  if type.code < t.type.code then .lt
  else if t.type.code < type.code then .gt
  else if memcmp token.bytes t.token.bytes < 0 then .lt
  else if 0 < memcmp token.bytes t.token.bytes then .gt
  else .eq

def insert (B : Balancer Sid) (sessions : Sid → Session) (tree : RbTree Sid) (s : Sid) : RbTree Sid :=
  B.insertColor (tree.link (fun t => goesLeft (sessions s) (sessions t)) s) s

def remove (B : Balancer Sid) (tree : RbTree Sid) (s : Sid) : RbTree Sid := B.erase tree s

def find (sessions : Sid → Session) (tree : RbTree Sid) (type : SessionType) (token : Token) :
    Option Sid :=
  tree.search (fun t => compareKey type token (sessions t))

def SortedTree (sessions : Sid → Session) (tree : RbTree Sid) : Prop :=
  tree.inorder.Pairwise (fun a b => (sessions a).key ≤ (sessions b).key)

theorem goesLeftLt {s t : Session} : goesLeft s t = true ↔ s.key < t.key := by
  simp only [Session.key,keyOf,Prod.Lex.toLex_lt_toLex,tokenLt,goesLeft]
  grind

theorem compareKeyLt {type token t} : compareKey type token t = .lt ↔ keyOf type token < t.key := by
  simp only [Session.key,keyOf,Prod.Lex.toLex_lt_toLex,tokenLt,compareKey]
  grind

theorem compareKeyGt {type token t} : compareKey type token t = .gt ↔ t.key < keyOf type token := by
  simp only [Session.key,keyOf,Prod.Lex.toLex_lt_toLex,tokenGt,compareKey]
  grind

theorem compareKeyEq {type token t} :
    compareKey type token t = .eq ↔ t.type = type ∧ t.token = token := by
  have less : compareKey type token t = .lt ↔ keyOf type token < t.key := compareKeyLt
  have more : compareKey type token t = .gt ↔ t.key < keyOf type token := compareKeyGt
  have same : t.key = keyOf type token ↔ t.type = type ∧ t.token = token := by
    simp only [Session.key,keyOf,EmbeddingLike.apply_eq_iff_eq,Prod.mk.injEq]
    exact and_congr_left (fun _ => ⟨codeInjective,fun h => by rw [h]⟩)
  rw [← same]
  rcases lt_trichotomy t.key (keyOf type token) with h | h | h
  · simp [more.mpr h,ne_of_lt h]
  · constructor
    · exact fun _ => h
    · intro _
      cases hc : compareKey type token t with
      | lt => exact absurd (less.mp hc) (by simp [h])
      | gt => exact absurd (more.mp hc) (by simp [h])
      | eq => rfl
  · simp [less.mpr h,ne_of_gt h]

theorem sortedSearch {sessions tree} (sorted : SortedTree sessions tree) (type token) :
    Ordered (fun t => compareKey type token (sessions t)) tree.inorder := by
  apply sorted.imp
  intro a b le
  simp only [compareKeyLt,compareKeyGt]
  exact ⟨fun h => lt_of_lt_of_le h le,fun h => lt_of_le_of_lt le h⟩

theorem findSound {sessions tree type token s} (found : find sessions tree type token = some s) :
    s ∈ tree.inorder ∧ (sessions s).type = type ∧ (sessions s).token = token := by
  obtain ⟨mem,same⟩ := searchSound found
  exact ⟨mem,compareKeyEq.mp same⟩

theorem findNone {sessions tree type token} (sorted : SortedTree sessions tree)
    (absent : find sessions tree type token = none) {s} (mem : s ∈ tree.inorder) :
    ¬ ((sessions s).type = type ∧ (sessions s).token = token) := fun same =>
  searchNone (sortedSearch sorted type token) absent s mem (compareKeyEq.mpr same)

theorem insertMem {B sessions tree s x} :
    x ∈ (insert B sessions tree s).inorder ↔ x = s ∨ x ∈ tree.inorder := by
  rw [insert,B.insertColorInorder,linkMem]

theorem insertPerm {B sessions tree s} : (insert B sessions tree s).inorder.Perm (s :: tree.inorder) := by
  rw [insert,B.insertColorInorder]
  exact linkPerm _ s tree

theorem insertNodup {B sessions tree s} (unique : tree.inorder.Nodup) (fresh : s ∉ tree.inorder) :
    (insert B sessions tree s).inorder.Nodup := by
  rw [insert,B.insertColorInorder]
  exact linkNodup unique fresh

theorem insertSorted {B sessions tree s} (sorted : SortedTree sessions tree) :
    SortedTree sessions (insert B sessions tree s) := by
  rw [SortedTree,insert,B.insertColorInorder]
  have trans : ∀ a b c : Sid, (sessions a).key ≤ (sessions b).key →
      (sessions b).key ≤ (sessions c).key → (sessions a).key ≤ (sessions c).key :=
    fun _ _ _ => le_trans
  refine linkSorted trans ?_ ?_ sorted
  · intro v left
    exact le_of_lt (goesLeftLt.mp left)
  · intro v right
    refine not_lt.mp (fun less => ?_)
    rw [goesLeftLt.mpr less] at right
    contradiction

theorem removeMem {B tree s x} (unique : tree.inorder.Nodup) (mem : s ∈ tree.inorder) :
    x ∈ (remove B tree s).inorder ↔ x ≠ s ∧ x ∈ tree.inorder := by
  rw [remove,B.eraseInorder tree s mem,unique.mem_erase_iff]

theorem removeNodup {B tree s} (unique : tree.inorder.Nodup) (mem : s ∈ tree.inorder) :
    (remove B tree s).inorder.Nodup := by
  rw [remove,B.eraseInorder tree s mem]
  exact unique.erase s

theorem removeSorted {B sessions sessions' tree s} (unique : tree.inorder.Nodup)
    (mem : s ∈ tree.inorder) (sorted : SortedTree sessions tree)
    (same : ∀ t ∈ tree.inorder, t ≠ s → (sessions' t).key = (sessions t).key) :
    SortedTree sessions' (remove B tree s) := by
  rw [SortedTree,remove,B.eraseInorder tree s mem]
  have kept : (tree.inorder.erase s).Pairwise (fun a b => (sessions a).key ≤ (sessions b).key) :=
    List.Pairwise.sublist List.erase_sublist sorted
  refine kept.imp_of_mem ?_
  intro a b ha hb le
  obtain ⟨na,ma⟩ := unique.mem_erase_iff.mp ha
  obtain ⟨nb,mb⟩ := unique.mem_erase_iff.mp hb
  rw [same a ma na,same b mb nb]
  exact le

theorem sortedCongr {sessions sessions' tree} (sorted : SortedTree sessions tree)
    (same : ∀ t ∈ tree.inorder, (sessions' t).key = (sessions t).key) :
    SortedTree sessions' tree := by
  refine List.Pairwise.imp_of_mem ?_ sorted
  intro a b ha hb le
  rw [same a ha,same b hb]
  exact le

end HevFsh.SessionManager
