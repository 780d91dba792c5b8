import Mathlib.Tactic

/-!
# Functions of blocks, on streams

A function of a state and a block of `n` elements is carried over to lists by `absorb`, which takes
the complete blocks of a list one after another; `rest` is what is left behind them. A consumer
that gets the elements one by one keeps the elements left in a buffer: `Consumed` says that it is
where the list so far leads, `Consumed.push` what it has to do with the next element, and
`Consumed.absorb_append` what becomes of the list when more elements follow.
-/

namespace Blocks

variable {α σ : Type*} {n : ℕ} {f : σ → List α → σ} {h₀ h : σ} {s t buffer : List α}

/-- The function on the complete blocks of a list. -/
def absorb (n : ℕ) (f : σ → List α → σ) (h : σ) (s : List α) : σ :=
  (List.range (s.length / n)).foldl (fun h k => f h ((s.drop (k * n)).take n)) h

/-- The elements behind the complete blocks. -/
def rest (n : ℕ) (s : List α) : List α := s.drop (s.length / n * n)

theorem length_rest (n : ℕ) (s : List α) : (rest n s).length = s.length % n := by
  rw [rest, List.length_drop, Nat.mod_eq_sub_div_mul]

theorem absorb_of_lt (hs : s.length < n) : absorb n f h s = h := by
  rw [absorb, Nat.div_eq_of_lt hs]
  rfl

theorem absorb_block (hn : 0 < n) (hs : s.length = n) : absorb n f h s = f h s := by
  rw [absorb, hs, Nat.div_self hn]
  change f h ((s.drop (0 * n)).take n) = f h s
  rw [Nat.zero_mul, List.drop_zero, List.take_of_length_le hs.le]

/-- Complete blocks are taken first. -/
theorem absorb_append (hn : 0 < n) (hs : n ∣ s.length) :
    absorb n f h (s ++ t) = absorb n f (absorb n f h s) t := by
  obtain ⟨q, hq⟩ := hs
  have hdiv : (s ++ t).length / n = q + t.length / n := by
    rw [List.length_append, hq, Nat.mul_add_div hn]
  have hleft : ∀ k ∈ List.range q, ∀ h : σ,
      f h (((s ++ t).drop (k * n)).take n) = f h ((s.drop (k * n)).take n) := by
    intro k hk h
    have hlt : (k + 1) * n ≤ q * n := Nat.mul_le_mul_right n (List.mem_range.mp hk)
    rw [Nat.mul_comm q n, ← hq, Nat.add_mul, Nat.one_mul] at hlt
    rw [List.drop_append_of_le_length (by omega), List.take_append_of_le_length]
    rw [List.length_drop]
    omega
  have hright : ∀ k, (s ++ t).drop ((q + k) * n) = t.drop (k * n) := by
    intro k
    rw [Nat.add_mul, Nat.mul_comm q n, ← hq, ← List.drop_drop, List.drop_left]
  rw [absorb, hdiv, List.range_add, List.foldl_append, List.foldl_map]
  simp only [hright]
  rw [absorb, absorb, hq, Nat.mul_div_cancel_left q hn]
  congr 1
  exact List.foldl_ext _ _ h fun h k hk => hleft k hk h

/-- A list is its complete blocks and the rest. -/
theorem absorb_take (hn : 0 < n) : absorb n f h (s.take (s.length / n * n)) = absorb n f h s := by
  have hle := Nat.div_mul_le_self s.length n
  have hdvd : n ∣ (s.take (s.length / n * n)).length := by
    rw [List.length_take, Nat.min_eq_left hle]
    exact Nat.dvd_mul_left n _
  have hlt : (s.drop (s.length / n * n)).length < n := by
    rw [← rest, length_rest]
    exact Nat.mod_lt _ hn
  conv_rhs => rw [← List.take_append_drop (s.length / n * n) s]
  rw [absorb_append hn hdvd, absorb_of_lt hlt]

/-! ## A consumer with a buffer -/

/-- A consumer that began at `h₀` has taken the elements of `s`. -/
structure Consumed (n : ℕ) (f : σ → List α → σ) (h₀ : σ) (s : List α) (h : σ)
    (buffer : List α) : Prop where
  state : h = absorb n f h₀ s
  buffer_eq : buffer = rest n s

theorem consumed_nil : Consumed n f h₀ [] h₀ [] where
  state := by simp [absorb]
  buffer_eq := by simp [rest]

theorem Consumed.length_buffer (hc : Consumed n f h₀ s h buffer) :
    buffer.length = s.length % n := by
  rw [hc.buffer_eq, length_rest]

/-- The consumer may go on from its state with its buffer. -/
theorem Consumed.absorb_append (hn : 0 < n) (hc : Consumed n f h₀ s h buffer) (t : List α) :
    absorb n f h₀ (s ++ t) = absorb n f h (buffer ++ t) := by
  have hle := Nat.div_mul_le_self s.length n
  have hdvd : n ∣ (s.take (s.length / n * n)).length := by
    rw [List.length_take, Nat.min_eq_left hle]
    exact Nat.dvd_mul_left n _
  conv_lhs => rw [← List.take_append_drop (s.length / n * n) s, List.append_assoc]
  rw [Blocks.absorb_append hn hdvd, absorb_take hn, ← hc.state, ← rest, ← hc.buffer_eq]

/-- The next element goes into the buffer, and a full buffer is a block. -/
theorem Consumed.push (hn : 0 < n) (hc : Consumed n f h₀ s h buffer) (a : α) :
    if buffer.length + 1 = n then Consumed n f h₀ (s ++ [a]) (f h (buffer ++ [a])) []
    else Consumed n f h₀ (s ++ [a]) h (buffer ++ [a]) := by
  have hlen := hc.length_buffer
  have hmod := Nat.mod_lt s.length hn
  have hnext := hc.absorb_append hn [a]
  have hsize : (s ++ [a]).length = s.length + 1 := by simp
  split_ifs with hfull
  · have hblock : (buffer ++ [a]).length = n := by simpa using hfull
    have hdvd : (s ++ [a]).length % n = 0 := by
      rw [hsize, ← Nat.div_add_mod s.length n, ← hlen, Nat.add_assoc, hfull,
        Nat.mul_add_mod, Nat.mod_self]
    refine ⟨?_, ?_⟩
    · rw [hnext, absorb_block hn hblock]
    · refine (List.length_eq_zero_iff.mp ?_).symm
      rw [length_rest, hdvd]
  · have hlt : buffer.length + 1 < n := by omega
    have hdiv : (s ++ [a]).length / n = s.length / n := by
      rw [hsize, Nat.add_div hn, Nat.mod_eq_of_lt (by omega : 1 < n),
        Nat.div_eq_of_lt (by omega : 1 < n), ← hlen, if_neg (by omega)]
      omega
    refine ⟨?_, ?_⟩
    · rw [hnext, absorb_of_lt (by simpa using hlt)]
    · rw [rest, hdiv, List.drop_append_of_le_length (Nat.div_mul_le_self _ _), ← rest,
        ← hc.buffer_eq]

end Blocks
