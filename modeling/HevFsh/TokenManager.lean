import HevFsh.SearchTree
import HevFsh.Protocol

/-! The allow list of hev-fsh-token-manager. A reload is atomic for the session
tasks: it reads the file without yielding. Here it is given the tokens that the
lines of the file parse to, in their order. -/
namespace HevFsh.TokenManager
open SearchTree Protocol

def find (tree : RbTree Token) (token : Token) : Bool :=
  (tree.search (fun t =>
    if memcmp token.bytes t.bytes < 0 then .lt
    else if 0 < memcmp token.bytes t.bytes then .gt
    else .eq)).isSome

def insert (B : Balancer Token) (tree : RbTree Token) (token : Token) : RbTree Token :=
  B.insertColor (tree.link (fun t => decide (memcmp token.bytes t.bytes < 0)) token) token

def reload (B : Balancer Token) (tokens : List Token) : RbTree Token :=
  tokens.foldl (insert B) .leaf

theorem findMem {tree token} (found : find tree token = true) : token ∈ tree.inorder := by
  obtain ⟨t,hit⟩ := Option.isSome_iff_exists.mp found
  obtain ⟨mem,same⟩ := searchSound hit
  have zero : memcmp token.bytes t.bytes = 0 := by
    split at same <;> try contradiction
    split at same <;> try contradiction
    omega
  rwa [tokenEq.mpr zero]

theorem reloadMem (B : Balancer Token) (tokens : List Token) {t : Token} :
    t ∈ (reload B tokens).inorder ↔ t ∈ tokens := by
  have folds : ∀ tree : RbTree Token, t ∈ (tokens.foldl (insert B) tree).inorder ↔
      t ∈ tokens ∨ t ∈ tree.inorder := by
    induction tokens with
    | nil => simp
    | cons token rest ih =>
      intro tree
      rw [List.foldl_cons,ih,insert,B.insertColorInorder,linkMem,List.mem_cons]
      tauto
  simpa [reload,RbTree.inorder] using folds .leaf

end HevFsh.TokenManager
