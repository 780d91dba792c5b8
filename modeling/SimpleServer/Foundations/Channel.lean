import SimpleServer.Foundations.Runs

/-!
# A channel with one order of messages

Members join a channel one after another, and what is posted goes to all of them. A member sees the
posts since it joined (`view`): joining, it sees none, and each post is appended to every view
(`view_join`, `view_post`). All views are ends of one list, so that of any two members one has seen
an end of what the other has seen (`suffix_or_suffix`).
-/

namespace Broadcast

open Runs

variable {κ μ : Type*}

/-- The posts in their order, and how many there were when a member joined. -/
structure Channel (κ μ : Type*) where
  posts : List μ
  joined : κ → Option ℕ
  joined_le : ∀ c n, joined c = some n → n ≤ posts.length

inductive Event (κ μ : Type*)
  | join (c : κ)
  | post (m : μ)

namespace Channel

def empty : Channel κ μ where
  posts := []
  joined _ := none
  joined_le := nofun

/-- What a member has seen. -/
def view (s : Channel κ μ) (c : κ) : Option (List μ) := (s.joined c).map fun n => s.posts.drop n

def post (s : Channel κ μ) (m : μ) : Channel κ μ where
  posts := s.posts ++ [m]
  joined := s.joined
  joined_le c n h := by
    rw [List.length_append]
    exact (s.joined_le c n h).trans (Nat.le_add_right ..)

/-- A member joins behind the posts so far. -/
def join [DecidableEq κ] (s : Channel κ μ) (c : κ) : Channel κ μ where
  posts := s.posts
  joined := Function.update s.joined c (some s.posts.length)
  joined_le d n h := by
    by_cases hd : d = c
    · subst hd
      rw [Function.update_self] at h
      exact (Option.some.inj h).ge
    · rw [Function.update_of_ne hd] at h
      exact s.joined_le d n h

/-- A step; nobody joins twice. -/
def step [DecidableEq κ] (s : Channel κ μ) : Event κ μ → Option (Channel κ μ)
  | .join c => if s.joined c = none then some (s.join c) else none
  | .post m => some (s.post m)

variable {s : Channel κ μ} {c d : κ} {ms ns : List μ}

theorem joined_join [DecidableEq κ] (s : Channel κ μ) (c d : κ) :
    (s.join c).joined d = if d = c then some s.posts.length else s.joined d :=
  Function.update_apply ..

theorem view_join [DecidableEq κ] (s : Channel κ μ) (c d : κ) :
    (s.join c).view d = if d = c then some [] else s.view d := by
  unfold view
  rw [joined_join]
  split_ifs
  · simp [join]
  · rfl

theorem view_post (s : Channel κ μ) (m : μ) (c : κ) :
    (s.post m).view c = (s.view c).map fun ms => ms ++ [m] := by
  unfold view
  rcases h : s.joined c with _ | n
  · rw [post, h]
    rfl
  · rw [post, h, Option.map_some, Option.map_some, Option.map_some,
      List.drop_append_of_le_length (s.joined_le c n h)]

/-- A view is an end of the posts. -/
theorem view_suffix (h : s.view c = some ms) : ms <:+ s.posts := by
  obtain ⟨n, -, rfl⟩ := Option.map_eq_some_iff.mp h
  exact List.drop_suffix n s.posts

/-- **One order**: of two members, one has seen an end of what the other has seen. -/
theorem suffix_or_suffix (h : s.view c = some ms) (h' : s.view d = some ns) :
    ms <:+ ns ∨ ns <:+ ms :=
  List.suffix_or_suffix_of_suffix (view_suffix h) (view_suffix h')

end Channel

end Broadcast
