import Mathlib.Algebra.BigOperators.Group.List.Basic
import Mathlib.Algebra.Order.Ring.Nat
import Mathlib.Data.List.Nodup
import Mathlib.Tactic.Ring
import Mathlib.Tactic.Linarith

/-!
# How many rows a join has

A join is counted from the keys of its two sides, a null key agreeing with none. Three numbers
say everything: the agreeing pairs (`joined`) and, on each side, the rows that agree with some
row of the other (`hit`). `joined_le_mul` bounds the pairs by the product of the other two and
`joined_le_hit` by one of them where the other side's keys are unique; what
`joinCardinalityUpperBound` promises is arithmetic from there (`joinRows_le`,
`joinBound_mono`).
-/

namespace Haute.Cardinality

variable {K : Type} [DecidableEq K]

/-! ### Counting a join -/

/-- Two keys agree: they are equal and not null. -/
def agree (k l : Option K) : Bool := k.isSome && decide (k = l)

/-- How many of a side's rows agree with a key. -/
def hits (keys : List (Option K)) (k : Option K) : ℕ := keys.countP (agree k)

/-- The agreeing pairs. -/
def joined (left right : List (Option K)) : ℕ := (left.map (hits right)).sum

/-- The left rows that agree with some right row. -/
def hit (left right : List (Option K)) : ℕ := left.countP fun k => decide (hits right k ≠ 0)

/-- The left rows that agree with none. -/
def lone (left right : List (Option K)) : ℕ := left.countP fun k => decide (hits right k = 0)

/-- The ways Polars joins. -/
inductive JoinHow where
  | inner | left | right | full | semi | anti | cross
  deriving DecidableEq, Repr

/-- The rows of a join of two sides with these keys. -/
def joinRows (left right : List (Option K)) : JoinHow → ℕ
  | .inner => joined left right
  | .left => joined left right + lone left right
  | .right => joined left right + lone right left
  | .full => joined left right + lone left right + lone right left
  | .semi => hit left right
  | .anti => lone left right
  | .cross => left.length * right.length

/-- The keys that are not null are distinct. -/
def Unique (keys : List (Option K)) : Prop := (keys.filterMap id).Nodup

theorem agree_comm (k l : Option K) : agree k l = agree l k := by
  rw [Bool.eq_iff_iff, agree, agree, Bool.and_eq_true, Bool.and_eq_true, decide_eq_true_iff,
    decide_eq_true_iff]
  constructor <;> rintro ⟨h, rfl⟩ <;> exact ⟨h, rfl⟩

theorem hits_cons (keys : List (Option K)) (k l : Option K) :
    hits (l :: keys) k = hits keys k + if agree k l then 1 else 0 := List.countP_cons

theorem joined_cons (left right : List (Option K)) (k : Option K) :
    joined (k :: left) right = hits right k + joined left right := List.sum_cons

theorem joined_cons_right (left right : List (Option K)) (k : Option K) :
    joined left (k :: right) = hits left k + joined left right := by
  induction left with
  | nil => rfl
  | cons l left ih =>
    rw [joined_cons, joined_cons, ih, hits_cons, hits_cons, agree_comm k l]
    ring

/-- The pairs counted from either side. -/
theorem joined_comm (left right : List (Option K)) : joined left right = joined right left := by
  induction left with
  | nil =>
    induction right with
    | nil => rfl
    | cons k right ih => rw [joined_cons_right, joined_cons, ← ih]
  | cons k left ih => rw [joined_cons, joined_cons_right, ih]

theorem hit_add_lone (left right : List (Option K)) :
    hit left right + lone left right = left.length := by
  rw [hit, lone, List.length_eq_countP_add_countP fun k => decide (hits right k ≠ 0)]
  congr 1
  refine List.countP_congr fun k _ => ?_
  rw [decide_eq_true_iff, decide_eq_true_iff, decide_eq_true_iff, not_not]

/-- Where no key agrees with more than `c` rows, a row that agrees counts for `c` at most. -/
theorem joined_le_of_hits_le {left right : List (Option K)} {c : ℕ}
    (h : ∀ k ∈ left, hits right k ≤ c) : joined left right ≤ hit left right * c := by
  induction left with
  | nil => exact Nat.zero_le _
  | cons k left ih =>
    have hrest := ih fun l hl => h l (List.mem_cons_of_mem _ hl)
    have hk := h k List.mem_cons_self
    rw [joined_cons, hit, List.countP_cons, ← hit]
    by_cases hzero : hits right k = 0
    · rw [if_neg (by simpa using hzero), hzero, Nat.zero_add, Nat.add_zero]
      exact hrest
    · rw [if_pos (by simpa using hzero)]
      linarith

/-- The rows that agree with a key of the other side all agree with some row of it. -/
theorem hits_le_hit {left right : List (Option K)} {k : Option K} (hk : k ∈ left) :
    hits right k ≤ hit right left := by
  refine List.countP_mono_left fun l _ hagree => ?_
  rw [decide_eq_true_iff, hits, Ne, List.countP_eq_zero]
  intro hnone
  exact hnone k hk (agree_comm k l ▸ hagree)

theorem joined_le_mul (left right : List (Option K)) :
    joined left right ≤ hit left right * hit right left :=
  joined_le_of_hits_le fun _ hk => hits_le_hit hk

theorem hits_le_one {keys : List (Option K)} (h : Unique keys) (k : Option K) :
    hits keys k ≤ 1 := by
  cases k with
  | none =>
    have hnone : hits keys none = 0 := List.countP_eq_zero.mpr fun l _ => by simp [agree]
    rw [hnone]
    exact Nat.zero_le 1
  | some v =>
    have hcount : hits keys (some v) = (keys.filterMap id).count v := by
      rw [hits, List.count, List.countP_filterMap]
      refine List.countP_congr fun l _ => ?_
      cases l with
      | none => simp [agree]
      | some w =>
        rw [agree_comm]
        simp [agree]
    rw [hcount]
    exact List.nodup_iff_count_le_one.mp h v

/-- Where the right keys are unique, a left row has one pair at most. -/
theorem joined_le_hit {left right : List (Option K)} (h : Unique right) :
    joined left right ≤ hit left right := by
  have hle : joined left right ≤ hit left right * 1 :=
    joined_le_of_hits_le fun k _ => hits_le_one h k
  rwa [Nat.mul_one] at hle

/-! ### The bound -/

/-- Which side's keys a join declares unique. -/
inductive JoinValidation where
  | manyToMany | manyToOne | oneToMany | oneToOne
  deriving DecidableEq, Repr

namespace JoinValidation

def leftUnique : JoinValidation → Bool
  | .oneToOne | .oneToMany => true
  | .manyToMany | .manyToOne => false

def rightUnique : JoinValidation → Bool
  | .oneToOne | .manyToOne => true
  | .manyToMany | .oneToMany => false

def spelled : JoinValidation → String
  | .manyToMany => "m:m"
  | .manyToOne => "m:1"
  | .oneToMany => "1:m"
  | .oneToOne => "1:1"

/-- The contract Polars enforces when the join runs. -/
def Holds (v : JoinValidation) (left right : List (Option K)) : Prop :=
  (v.leftUnique = true → Unique left) ∧ (v.rightUnique = true → Unique right)

end JoinValidation

def JoinHow.spelled : JoinHow → String
  | .inner => "inner"
  | .left => "left"
  | .right => "right"
  | .full => "full"
  | .semi => "semi"
  | .anti => "anti"
  | .cross => "cross"

/-- The bound and its formula. -/
def joinBound (how : JoinHow) (v : JoinValidation) (left right : ℕ) : ℕ × String :=
  match how with
  | .cross => (left * right, "left_rows*right_rows")
  | .semi | .anti => (left, "left_rows")
  | .inner =>
    if v.leftUnique && v.rightUnique then
      (min left right, "min(left_rows,right_rows):both_keys_unique")
    else if v.rightUnique then (left, "left_rows:right_key_unique")
    else if v.leftUnique then (right, "right_rows:left_key_unique")
    else (left * right, "left_rows*right_rows")
  | .left =>
    if v.rightUnique then (left, "left_rows:right_key_unique")
    else if v.leftUnique then
      (if right = 0 then left else left + right - 1,
        "left_rows+right_rows-1:left_key_unique_and_right_nonempty")
    else (left * max right 1, "left_rows*max(right_rows,1)")
  | .right =>
    if v.leftUnique then (right, "right_rows:left_key_unique")
    else if v.rightUnique then
      (if left = 0 then right else left + right - 1,
        "left_rows+right_rows-1:right_key_unique_and_left_nonempty")
    else (right * max left 1, "right_rows*max(left_rows,1)")
  | .full =>
    if left = 0 then (right, "right_rows:left_empty")
    else if right = 0 then (left, "left_rows:right_empty")
    else if v.leftUnique || v.rightUnique then
      (left + right, "left_rows+right_rows:at_least_one_key_unique")
    else
      (max (left * right) (left + right), "max(left_rows*right_rows,left_rows+right_rows)")

structure JoinCardinalityBound where
  maxRows : ℕ
  evidence : List String
  deriving DecidableEq, Repr

/-- `join_cardinality_upper_bound`. -/
def joinCardinalityUpperBound (how : JoinHow) (v : JoinValidation) (left right : ℕ) :
    JoinCardinalityBound where
  maxRows := (joinBound how v left right).1
  evidence :=
    ["join_how=" ++ how.spelled, "join_validate=" ++ v.spelled,
      "join_cardinality_formula=" ++ (joinBound how v left right).2,
      "join_cardinality_upper_bound=" ++ toString (joinBound how v left right).1]

/-! ### The bound is sound -/

/-- A larger argument never lowers the bound. -/
theorem joinBound_mono (how : JoinHow) (v : JoinValidation) {left left' right right' : ℕ}
    (hl : left ≤ left') (hr : right ≤ right') :
    (joinBound how v left right).1 ≤ (joinBound how v left' right').1 := by
  have hproduct : left * right ≤ left' * right' := Nat.mul_le_mul hl hr
  have hmax : left * max right 1 ≤ left' * max right' 1 := Nat.mul_le_mul hl (max_le_max_right 1 hr)
  have hmax' : right * max left 1 ≤ right' * max left' 1 :=
    Nat.mul_le_mul hr (max_le_max_right 1 hl)
  cases how with
  | cross => exact hproduct
  | semi | anti => exact hl
  | inner =>
    simp only [joinBound]
    split_ifs <;> omega
  | left =>
    simp only [joinBound]
    split_ifs <;> omega
  | right =>
    simp only [joinBound]
    split_ifs <;> omega
  | full =>
    simp only [joinBound]
    split_ifs <;> omega

/-- The three numbers of a full join without a contract. -/
theorem full_le {a b l r j : ℕ} (hj : j ≤ a * b) (ha : a ≤ l) (hb : b ≤ r) :
    j + (l - a) + (r - b) ≤ max (l * r) (l + r) := by
  obtain ⟨u, rfl⟩ := Nat.exists_eq_add_of_le ha
  obtain ⟨w, rfl⟩ := Nat.exists_eq_add_of_le hb
  rw [Nat.add_sub_cancel_left, Nat.add_sub_cancel_left]
  rcases Nat.eq_zero_or_pos a with rfl | ha
  · rw [Nat.zero_mul] at hj
    exact le_max_of_le_right (by omega)
  · rcases Nat.eq_zero_or_pos b with rfl | hb
    · rw [Nat.mul_zero] at hj
      exact le_max_of_le_right (by omega)
    · refine le_max_of_le_left ?_
      have hw : w ≤ a * w := Nat.le_mul_of_pos_left w ha
      have hu : u ≤ u * b := Nat.le_mul_of_pos_right u hb
      calc j + u + w ≤ a * b + u * b + a * w := by omega
        _ ≤ (a + u) * (b + w) := by nlinarith

/-- **The bound holds** of every join whose contract holds, taken at its sides' own lengths. -/
theorem joinRows_le_joinBound {v : JoinValidation} {left right : List (Option K)}
    (h : v.Holds left right) (how : JoinHow) :
    joinRows left right how ≤ (joinBound how v left.length right.length).1 := by
  have hmul := joined_le_mul left right
  have hleft := hit_add_lone left right
  have hright := hit_add_lone right left
  have hl : v.leftUnique = true → joined left right ≤ hit right left := fun hv =>
    joined_comm left right ▸ joined_le_hit (h.1 hv)
  have hr : v.rightUnique = true → joined left right ≤ hit left right := fun hv =>
    joined_le_hit (h.2 hv)
  cases how with
  | cross => exact le_rfl
  | semi =>
    simp only [joinRows, joinBound]
    omega
  | anti =>
    simp only [joinRows, joinBound]
    omega
  | inner =>
    have hproduct : hit left right * hit right left ≤ left.length * right.length :=
      Nat.mul_le_mul (by omega) (by omega)
    simp only [joinRows, joinBound]
    split_ifs with hboth hright' hleft'
    · rw [Bool.and_eq_true] at hboth
      have := hl hboth.1
      have := hr hboth.2
      omega
    · have := hr hright'
      omega
    · have := hl hleft'
      omega
    · omega
  | left =>
    simp only [joinRows, joinBound]
    split_ifs with hright' hleft' hempty
    · have := hr hright'
      omega
    · have := hl hleft'
      omega
    · -- a pair takes a left row that is not counted again
      have := hl hleft'
      have hpair : hit left right = 0 → joined left right = 0 := fun hzero => by
        rwa [hzero, Nat.zero_mul, Nat.le_zero] at hmul
      omega
    · have hproduct : hit left right * hit right left ≤ hit left right * max right.length 1 :=
        Nat.mul_le_mul_left _ (by omega)
      have hlone : lone left right * 1 ≤ lone left right * max right.length 1 :=
        Nat.mul_le_mul_left _ (by omega)
      calc joined left right + lone left right
          ≤ hit left right * max right.length 1 + lone left right * max right.length 1 := by omega
        _ = left.length * max right.length 1 := by rw [← Nat.add_mul, hleft]
  | right =>
    simp only [joinRows, joinBound]
    split_ifs with hleft' hright' hempty
    · have := hl hleft'
      omega
    · have := hr hright'
      omega
    · have := hr hright'
      have hpair : hit right left = 0 → joined left right = 0 := fun hzero => by
        rwa [hzero, Nat.mul_zero, Nat.le_zero] at hmul
      omega
    · have hproduct : hit left right * hit right left ≤ max left.length 1 * hit right left :=
        Nat.mul_le_mul_right _ (by omega)
      have hlone : 1 * lone right left ≤ max left.length 1 * lone right left :=
        Nat.mul_le_mul_right _ (by omega)
      calc joined left right + lone right left
          ≤ max left.length 1 * hit right left + max left.length 1 * lone right left := by omega
        _ = right.length * max left.length 1 := by rw [← Nat.mul_add, hright, Nat.mul_comm]
  | full =>
    simp only [joinRows, joinBound]
    have hpair : hit left right = 0 → joined left right = 0 := fun hzero => by
      rwa [hzero, Nat.zero_mul, Nat.le_zero] at hmul
    have hpair' : hit right left = 0 → joined left right = 0 := fun hzero => by
      rwa [hzero, Nat.mul_zero, Nat.le_zero] at hmul
    split_ifs with hleft' hright' hone
    · omega
    · omega
    · rcases Bool.or_eq_true _ _ ▸ hone with hone | hone
      · have := hl hone
        omega
      · have := hr hone
        omega
    · have hfull := full_le hmul (by omega : hit left right ≤ left.length)
        (by omega : hit right left ≤ right.length)
      have hl' : left.length - hit left right = lone left right := by omega
      have hr' : right.length - hit right left = lone right left := by omega
      rwa [hl', hr'] at hfull

/-- The bound at two bounds of the sides' lengths. -/
theorem joinRows_le_of_length_le {v : JoinValidation} {left right : List (Option K)}
    (h : v.Holds left right) (how : JoinHow) {leftRows rightRows : ℕ}
    (hleft : left.length ≤ leftRows) (hright : right.length ≤ rightRows) :
    joinRows left right how ≤ (joinCardinalityUpperBound how v leftRows rightRows).maxRows :=
  (joinRows_le_joinBound h how).trans (joinBound_mono how v hleft hright)

end Haute.Cardinality
