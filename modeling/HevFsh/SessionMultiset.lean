import HevFsh.SessionManager
import Mathlib.Data.Multiset.Filter
import Mathlib.Logic.Function.Basic

/-! The session manager as a multiset of what was inserted and not yet removed. Its callers
insert a session that is not in the tree, remove one that is, and change a session's type
while it is in the tree only right before they remove it. -/
namespace HevFsh.SessionMultiset
open SearchTree Protocol SessionManager

structure Entry where
  sid : Sid
  type : SessionType
  token : Token
  deriving DecidableEq, Repr

structure Manager where
  sessions : Sid → Session
  tree : RbTree Sid

inductive Call where
  | insert (s : Sid)
  | remove (s : Sid) (type : SessionType)
  | assign (s : Sid) (session : Session)

def apply (B : Balancer Sid) (m : Manager) : Call → Manager
  | .insert s => { m with tree := insert B m.sessions m.tree s }
  | .remove s type =>
      ⟨Function.update m.sessions s { m.sessions s with type := type },remove B m.tree s⟩
  | .assign s session => { m with sessions := Function.update m.sessions s session }

def entry (sessions : Sid → Session) (s : Sid) : Entry := ⟨s,(sessions s).type,(sessions s).token⟩

def record (sessions : Sid → Session) (M : Multiset Entry) : Call → Multiset Entry
  | .insert s => entry sessions s ::ₘ M
  | .remove s _ => M.filter (fun e => e.sid ≠ s)
  | .assign _ _ => M

def Registered (M : Multiset Entry) (s : Sid) : Prop := ∃ e ∈ M, e.sid = s

def Proper (sessions : Sid → Session) (M : Multiset Entry) : Call → Prop
  | .insert s => ¬ Registered M s
  | .remove s _ => Registered M s
  | .assign s session => Registered M s →
      session.type = (sessions s).type ∧ session.token = (sessions s).token

inductive Reach (B : Balancer Sid) : Manager → Multiset Entry → Prop where
  | start (sessions : Sid → Session) : Reach B ⟨sessions,.leaf⟩ 0
  | next {m M} (call : Call) (reach : Reach B m M) (proper : Proper m.sessions M call) :
      Reach B (apply B m call) (record m.sessions M call)

structure Refines (m : Manager) (M : Multiset Entry) : Prop where
  content : M = (m.tree.inorder.map (entry m.sessions) : List Entry)
  unique : m.tree.inorder.Nodup
  sorted : SortedTree m.sessions m.tree

section refines
variable {B : Balancer Sid} {m : Manager} {M : Multiset Entry} {s : Sid}

theorem registeredInorder (refines : Refines m M) : Registered M s ↔ s ∈ m.tree.inorder := by
  rw [refines.content]
  constructor
  · rintro ⟨e,mem,rfl⟩
    obtain ⟨t,inside,rfl⟩ := List.mem_map.mp (Multiset.mem_coe.mp mem)
    exact inside
  · exact fun inside => ⟨entry m.sessions s,Multiset.mem_coe.mpr (List.mem_map.mpr ⟨s,inside,rfl⟩),rfl⟩

theorem entryMem (refines : Refines m M) {type : SessionType} {token : Token} :
    ⟨s,type,token⟩ ∈ M ↔ s ∈ m.tree.inorder ∧ (m.sessions s).type = type ∧
      (m.sessions s).token = token := by
  rw [refines.content,Multiset.mem_coe,List.mem_map]
  constructor
  · rintro ⟨t,inside,same⟩
    cases same
    exact ⟨inside,rfl,rfl⟩
  · rintro ⟨inside,rfl,rfl⟩
    exact ⟨s,inside,rfl⟩

theorem insertRefines (refines : Refines m M) (fresh : ¬ Registered M s) :
    Refines (apply B m (.insert s)) (record m.sessions M (.insert s)) where
  content := by
    rw [record,refines.content,Multiset.cons_coe,Multiset.coe_eq_coe]
    exact (insertPerm.map (entry m.sessions)).symm
  unique := insertNodup refines.unique (fun inside => fresh ((registeredInorder refines).mpr inside))
  sorted := insertSorted refines.sorted

theorem removeRefines (refines : Refines m M) {type : SessionType} (there : Registered M s) :
    Refines (apply B m (.remove s type)) (record m.sessions M (.remove s type)) where
  content := by
    have mem := (registeredInorder refines).mp there
    have others : (remove B m.tree s).inorder = m.tree.inorder.filter (fun t => t ≠ s) := by
      rw [remove,B.eraseInorder m.tree s mem,refines.unique.erase_eq_filter]
      exact List.filter_congr (fun t _ => by simp [bne,beq_eq_decide])
    rw [record,refines.content,Multiset.filter_coe,apply,others,List.filter_map]
    refine congrArg _ (List.map_congr_left (fun t mem => ?_))
    have other : t ≠ s := of_decide_eq_true (List.mem_filter.mp mem).2
    simp only [entry,Function.update_of_ne other]
  unique := removeNodup refines.unique ((registeredInorder refines).mp there)
  sorted := removeSorted refines.unique ((registeredInorder refines).mp there) refines.sorted
    (fun t _ other => by simp only [apply,Function.update_of_ne other])

theorem assignRefines (refines : Refines m M) {session : Session}
    (kept : Registered M s → session.type = (m.sessions s).type ∧ session.token = (m.sessions s).token) :
    Refines (apply B m (.assign s session)) (record m.sessions M (.assign s session)) := by
  have same : ∀ t ∈ m.tree.inorder, (Function.update m.sessions s session t).type = (m.sessions t).type ∧
      (Function.update m.sessions s session t).token = (m.sessions t).token := by
    intro t mem
    by_cases here : t = s
    · subst here
      rw [Function.update_self]
      exact kept ((registeredInorder refines).mpr mem)
    · rw [Function.update_of_ne here]
      exact ⟨rfl,rfl⟩
  refine { content := ?_, unique := refines.unique, sorted := sortedCongr refines.sorted (fun t mem => ?_) }
  · rw [record,refines.content,apply]
    refine congrArg _ (List.map_congr_left (fun t mem => ?_))
    simp only [entry,same t mem]
  · simp only [apply,Session.key,same t mem]

theorem reachRefines (reach : Reach B m M) : Refines m M := by
  induction reach with
  | start sessions => exact ⟨rfl,List.nodup_nil,List.Pairwise.nil⟩
  | next call reach proper refines =>
    cases call with
    | insert s => exact insertRefines refines proper
    | remove s type => exact removeRefines refines proper
    | assign s session => exact assignRefines refines proper

/- The search is complete although equal keys may be on either side of a node. -/
theorem findExact (reach : Reach B m M) (type : SessionType) (token : Token) :
    (∀ s, find m.sessions m.tree type token = some s → ⟨s,type,token⟩ ∈ M ∧
      (m.sessions s).type = type ∧ (m.sessions s).token = token) ∧
    (find m.sessions m.tree type token = none ↔ ∀ s, ⟨s,type,token⟩ ∉ M) := by
  have refines := reachRefines reach
  have sound : ∀ s, find m.sessions m.tree type token = some s → ⟨s,type,token⟩ ∈ M ∧
      (m.sessions s).type = type ∧ (m.sessions s).token = token := by
    intro s found
    have facts := findSound found
    exact ⟨(entryMem refines).mpr facts,facts.2⟩
  refine ⟨sound,fun absent s mem => ?_,fun lacks => ?_⟩
  · obtain ⟨inside,same⟩ := (entryMem refines).mp mem
    exact findNone refines.sorted absent inside same
  · cases found : find m.sessions m.tree type token with
    | none => rfl
    | some s => exact absurd (sound s found).1 (lacks s)

end refines

def waiting : Session := ⟨true,3,-1,.forward,true,false,Token.zero,0,none⟩

theorem findExactEvicted : ∃ m M, Reach (Balancer.plain Sid) m M ∧
    find m.sessions m.tree .forward Token.zero = some 1 ∧
    (∀ s, find m.sessions m.tree .forward Token.zero = some s → ⟨s,.forward,Token.zero⟩ ∈ M ∧
      (m.sessions s).type = .forward ∧ (m.sessions s).token = Token.zero) ∧
    (find m.sessions m.tree .forward Token.zero = none ↔ ∀ s, ⟨s,.forward,Token.zero⟩ ∉ M) := by
  have first := Reach.next (.insert 0) (.start (B := Balancer.plain Sid) (fun _ => waiting))
    (by simp [Proper,Registered])
  have second := Reach.next (.insert 1) first (by simp [Proper,Registered,record,entry])
  have third := Reach.next (.remove 0 .closed) second (by simp [Proper,Registered,record,entry])
  exact ⟨_,_,third,by decide,findExact third .forward Token.zero⟩

end HevFsh.SessionMultiset
