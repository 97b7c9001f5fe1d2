import Mathlib

/-!
# A graph of commits

A commit is its content: a tree, its parents in order, and its message and identities. Two
commits with one content are one commit, as content addressing makes them, so a commit
stands for its own id and no store of objects is needed.

`history` lists what is reachable from a commit, parents before children and the commit
itself last. `range` is what one commit reaches and another does not, oldest first.
-/

namespace Haute.Git

/-- Who made a commit, and when. -/
structure Ident where
  name : String
  email : String
  date : String
  deriving DecidableEq

/-- A commit's message and identities. -/
structure Details where
  message : String
  author : Ident
  committer : Ident
  deriving DecidableEq

/-- A commit, by its content. -/
inductive Commit where
  | mk (tree : String) (parents : List Commit) (details : Details)

namespace Commit

/-- The tree of a commit. -/
def tree : Commit → String
  | mk t _ _ => t

/-- The parents of a commit, in order. -/
def parents : Commit → List Commit
  | mk _ ps _ => ps

/-- The message and identities of a commit. -/
def details : Commit → Details
  | mk _ _ d => d

/-! ### Decidable equality -/

mutual

/-- Structural equality of commits. -/
def beq : Commit → Commit → Bool
  | mk t ps d, mk t' ps' d' => decide (t = t') && beqList ps ps' && decide (d = d')

/-- Structural equality of lists of commits. -/
def beqList : List Commit → List Commit → Bool
  | [], [] => true
  | c :: cs, c' :: cs' => beq c c' && beqList cs cs'
  | _, _ => false

end

mutual

theorem beq_iff : ∀ c c' : Commit, beq c c' = true ↔ c = c'
  | mk t ps d, mk t' ps' d' => by
    simp only [beq, Bool.and_eq_true, decide_eq_true_eq, beqList_iff ps ps', mk.injEq, and_assoc]

theorem beqList_iff : ∀ cs cs' : List Commit, beqList cs cs' = true ↔ cs = cs'
  | [], [] => by simp [beqList]
  | [], _ :: _ => by simp [beqList]
  | _ :: _, [] => by simp [beqList]
  | c :: cs, c' :: cs' => by
    simp only [beqList, Bool.and_eq_true, beq_iff c c', beqList_iff cs cs', List.cons.injEq]

end

instance : DecidableEq Commit := fun c c' => decidable_of_iff (beq c c' = true) (beq_iff c c')

/-! ### Reachability -/

mutual

/-- What is reachable from a commit, parents first and the commit last. -/
def history : Commit → List Commit
  | mk t ps d => historyList ps ++ [mk t ps d]

/-- What is reachable from any of some commits. -/
def historyList : List Commit → List Commit
  | [] => []
  | p :: ps => history p ++ historyList ps

end

/-- The chain of first parents, newest first. -/
def firstParents : Commit → List Commit
  | mk t [] d => [mk t [] d]
  | mk t (p :: ps) d => mk t (p :: ps) d :: firstParents p

/-- `merge-base --is-ancestor`. -/
def isAncestor (c d : Commit) : Bool := d.history.contains c

/-- `rev-list --reverse start..finish`: what `finish` reaches and `start` does not, oldest
first. -/
def range (start finish : Commit) : List Commit :=
  (finish.history.filter fun c => !start.history.contains c).dedup

theorem history_eq (c : Commit) : c.history = historyList c.parents ++ [c] := by
  cases c
  rfl

/-- A commit over one parent adds itself to its parent's history. -/
theorem history_child (t : String) (p : Commit) (d : Details) :
    (mk t [p] d).history = p.history ++ [mk t [p] d] := by
  rw [history_eq, parents, historyList, historyList, List.append_nil]

mutual

/-- How many commits a commit is made of, with repetition. -/
def weight : Commit → ℕ
  | mk _ ps _ => weightList ps + 1

/-- How many commits some commits are made of. -/
def weightList : List Commit → ℕ
  | [] => 0
  | p :: ps => weight p + weightList ps

end

mutual

/-- What a commit reaches is lighter, or the commit itself. -/
theorem weight_lt_of_mem_history : ∀ (d : Commit) {c : Commit}, c ∈ d.history → c ≠ d →
    weight c < weight d
  | mk t ps e, c, hc, hne => by
    rw [history, List.mem_append, List.mem_singleton] at hc
    rcases hc with hc | rfl
    · rw [weight]
      have := weight_le_of_mem_historyList ps hc
      omega
    · exact absurd rfl hne

theorem weight_le_of_mem_historyList : ∀ (ps : List Commit) {c : Commit}, c ∈ historyList ps →
    weight c ≤ weightList ps
  | [], c, hc => by simp [historyList] at hc
  | p :: ps, c, hc => by
    rw [historyList, List.mem_append] at hc
    rw [weightList]
    rcases hc with hc | hc
    · by_cases hcp : c = p
      · subst hcp
        omega
      · have := weight_lt_of_mem_history p hc hcp
        omega
    · have := weight_le_of_mem_historyList ps hc
      omega

end

/-! ### Ranges -/

theorem range_sublist (start finish : Commit) : (range start finish).Sublist finish.history :=
  (List.dedup_sublist _).trans List.filter_sublist

end Commit

end Haute.Git
