import MagiC.Lib.Chain

/-!
# Sibling Lists

The children of a node, linked from the first to the last, with the last one linked back
to the node. The node itself keeps the first and the last child.

A node without children has a null element in both places, so the list that becomes empty
and the list that was empty are cases of their own.

## Main definitions

* `Sibs`: The children of a node.

## Theorems

* `sibs_push`, `sibs_insert`: A child is put in.
-/

namespace MagiC

namespace Chains

section

variable {α : Type} {next next' : α → α} {null parent head tail x y : α} {l m : List α}

/-- The children `l` of a node. -/
def Sibs (next : α → α) (null parent head tail : α) (l : List α) : Prop :=
  (l = [] ∧ head = null ∧ tail = null) ∨
    (l ≠ [] ∧ Path next head l parent ∧ l.getLast? = some tail)

theorem Sibs.path (h : Sibs next null parent head tail l) (hl : l ≠ []) :
    Path next head l parent ∧ l.getLast? = some tail := by
  rcases h with ⟨hnil, -⟩ | ⟨-, h⟩
  · exact absurd hnil hl
  · exact h

theorem sibs_of_path (hl : l ≠ []) (hp : Path next head l parent)
    (ht : l.getLast? = some tail) : Sibs next null parent head tail l :=
  .inr ⟨hl, hp, ht⟩

/-- Links of other nodes do not matter. -/
theorem sibs_congr (h : Sibs next null parent head tail l) (hn : ∀ z ∈ l, next' z = next z) :
    Sibs next' null parent head tail l := by
  rcases h with h | ⟨hl, hp, ht⟩
  · exact .inl h
  · exact .inr ⟨hl, path_congr next next' head parent l hn hp, ht⟩

theorem Sibs.mem_tail (h : Sibs next null parent head tail l) (hl : l ≠ []) : tail ∈ l :=
  List.mem_of_getLast? (h.path hl).2

theorem Sibs.head_mem (h : Sibs next null parent head tail l) (hl : l ≠ []) : head ∈ l := by
  rcases l with - | ⟨z, l⟩
  · exact absurd rfl hl
  · rw [(h.path hl).1.1]
    exact List.mem_cons_self

theorem sibs_single (hx : next x = parent) : Sibs next null parent x x [x] :=
  sibs_of_path (List.cons_ne_nil x []) ⟨rfl, hx⟩ rfl

theorem sibs_append (h : Sibs next null parent head tail l) (hl : l ≠ [])
    (ht : next' tail = x) (hx : next' x = parent) (hn : ∀ z ∈ l, z ≠ tail → next' z = next z)
    (hnd : l.Nodup) : Sibs next' null parent head x (l ++ [x]) := by
  rcases h.path hl with ⟨hp, hlast⟩
  have hsplit := List.dropLast_append_getLast? tail hlast
  rw [← hsplit] at hp hn hnd
  refine sibs_of_path (by simp) ?_ (by simp)
  have hpath := path_relink next next' head parent tail l.dropLast (fun z hz => ?_) hp
  · rw [hsplit, ht] at hpath
    exact (path_append next' head parent l [x]).mpr ⟨x, hpath, rfl, hx⟩
  · refine hn z (List.mem_append_left _ hz) fun heq => ?_
    rw [heq] at hz
    exact (List.nodup_append.mp hnd).2.2 tail hz tail List.mem_cons_self rfl

theorem sibs_first (h : Sibs next null parent head tail (x :: l)) (hl : l ≠ []) :
    Sibs next null parent (next x) tail l := by
  rcases h.path (List.cons_ne_nil x l) with ⟨hp, hlast⟩
  rcases l with - | ⟨z, l⟩
  · exact absurd rfl hl
  · exact sibs_of_path hl hp.2 (by rwa [List.getLast?_cons_cons] at hlast)

/-- What is behind `y` and before the rest of the list is exchanged. -/
theorem sibs_splice {u v : List α} (h : Sibs next null parent head tail (l ++ y :: u ++ m))
    (hu : ∀ b, Path next (next y) u b → Path next' (next' y) v b)
    (hn : ∀ z ∈ l ++ m, next' z = next z) :
    Sibs next' null parent head (if m = [] then (y :: v).getLast (List.cons_ne_nil y v) else tail)
      (l ++ y :: v ++ m) := by
  rcases h.path (by simp) with ⟨hp, hlast⟩
  rcases (path_append next head parent (l ++ y :: u) m).mp hp with ⟨b, hlu, hm⟩
  rcases (path_append next head b l (y :: u)).mp hlu with ⟨c, hl, rfl, hub⟩
  refine sibs_of_path (by simp) ?_ ?_
  · refine (path_append next' head parent (l ++ c :: v) m).mpr ⟨b, ?_, ?_⟩
    · refine (path_append next' head b l (c :: v)).mpr ⟨c, ?_, rfl, hu b hub⟩
      exact path_congr next next' head c l (fun z hz => hn z (List.mem_append_left m hz)) hl
    · exact path_congr next next' b parent m (fun z hz => hn z (List.mem_append_right l hz)) hm
  · split
    · rename_i hnil
      rw [hnil, List.append_nil, List.getLast?_append_of_ne_nil l (List.cons_ne_nil c v),
        List.getLast?_eq_some_getLast]
    · rename_i hne
      rw [List.getLast?_append_of_ne_nil _ hne] at hlast ⊢
      exact hlast

theorem sibs_cut (h : Sibs next null parent head tail (l ++ y :: x :: m)) (hy : next' y = next x)
    (hn : ∀ z ∈ l ++ m, next' z = next z) :
    Sibs next' null parent head (if m = [] then y else tail) (l ++ y :: m) := by
  have hs := sibs_splice (u := [x]) (v := []) (m := m) (by simpa using h) (fun b hb => ?_) hn
  · simpa using hs
  · rcases hb with ⟨hyx, hxb⟩
    exact hy.trans hxb

theorem sibs_push (h : Sibs next null parent head tail l) (hl : l ≠ []) (hx : next' x = head)
    (hn : ∀ z ∈ l, next' z = next z) : Sibs next' null parent x tail (x :: l) := by
  rcases h.path hl with ⟨hp, hlast⟩
  refine sibs_of_path (List.cons_ne_nil x l) ⟨rfl, ?_⟩ ?_
  · rw [hx]
    exact path_congr next next' head parent l hn hp
  · rcases l with - | ⟨z, l⟩
    · exact absurd rfl hl
    · rwa [List.getLast?_cons_cons]

theorem sibs_insert (h : Sibs next null parent head tail (l ++ y :: m)) (hy : next' y = x)
    (hx : next' x = next y) (hn : ∀ z ∈ l ++ m, next' z = next z) :
    Sibs next' null parent head (if m = [] then x else tail) (l ++ y :: x :: m) := by
  have hs := sibs_splice (u := []) (v := [x]) (m := m) (by simpa using h) (fun b hb => ?_) hn
  · simpa using hs
  · exact ⟨hy, hx.trans hb⟩

theorem sibs_last_iff (h : Sibs next null parent head tail (l ++ x :: m)) (hp : parent ∉ m) :
    next x = parent ↔ m = [] := by
  rcases h.path (by simp) with ⟨hpath, -⟩
  rcases (path_append next head parent l (x :: m)).mp hpath with ⟨c, -, rfl, hm⟩
  refine ⟨fun heq => ?_, fun hnil => by rwa [hnil] at hm⟩
  exact path_unique next (next c) parent m [] hm heq hp List.not_mem_nil

end

end Chains

end MagiC
