import Mathlib.Data.List.Basic

/-!
# Cutting a list into blocks

`block k l i` is the `i`-th block of length `k`, shorter only where the list
ends. A sender that cuts and a receiver that appends agree on one law: the
first `i + 1` blocks are the first `i` and the next one (`take_succ_block`).
A block is short exactly when the list ends inside it or in front of it
(`length_block_lt`), and then the blocks so far are the whole list
(`take_of_short`). `blocks k l n` are the first `n` blocks.
-/
namespace NetworksLab

universe u
variable {α : Type u} {k : Nat} {l : List α}

def block (k : Nat) (l : List α) (i : Nat) : List α := (l.drop (k * i)).take k

theorem length_block (i : Nat) : (block k l i).length = min k (l.length - k * i) := by
  rw [block, List.length_take, List.length_drop]

theorem take_succ_block (i : Nat) :
    l.take (k * (i + 1)) = l.take (k * i) ++ block k l i := by
  rw [block, Nat.mul_succ, List.take_add]

theorem length_block_lt {i : Nat} (hk : 0 < k) :
    (block k l i).length < k ↔ l.length < k * (i + 1) := by
  rw [length_block, Nat.mul_succ]; omega

theorem length_block_eq {i : Nat} (hk : 0 < k) :
    (block k l i).length = k ↔ k * (i + 1) ≤ l.length := by
  rw [length_block, Nat.mul_succ]; omega

theorem take_of_short {i : Nat} (h : l.length < k * i) : l.take (k * i) = l :=
  List.take_of_length_le (Nat.le_of_lt h)

/-- The first `n` blocks. -/
def blocks (k : Nat) (l : List α) (n : Nat) : List (List α) := (List.range n).map (block k l)

theorem blocks_succ (n : Nat) : blocks k l (n + 1) = blocks k l n ++ [block k l n] := by
  rw [blocks, List.range_succ, List.map_append]
  rfl

theorem flatten_blocks (n : Nat) : (blocks k l n).flatten = l.take (k * n) := by
  induction n with
  | zero => simp [blocks]
  | succ n ih => rw [blocks_succ, List.flatten_concat, ih, take_succ_block]

/-- All blocks are full if the list is long enough. -/
theorem length_of_mem_blocks {n : Nat} (h : k * n ≤ l.length) : ∀ b ∈ blocks k l n, b.length = k := by
  intro b hb
  obtain ⟨i, hi, rfl⟩ := List.mem_map.mp hb
  have hle : k * (i + 1) ≤ k * n := Nat.mul_le_mul_left k (List.mem_range.mp hi)
  rw [length_block]
  rw [Nat.mul_succ] at hle
  omega

/-- The number of the last block, the first one that is short. -/
theorem lt_mul_iff_div_lt {n i : Nat} (hk : 0 < k) : n < k * i ↔ n / k < i := by
  rw [Nat.div_lt_iff_lt_mul hk, Nat.mul_comm]

end NetworksLab
