import Mathlib.Tactic
import Vmc.Lib.Bytes

/-!
# Vmc.Lib.Ring

Circular buffers, kept as the list of their cells.

`items cells tail n` is what the `n` cells from `tail` on hold, going round at
the end of the list.  It is a queue: a cell written behind the last item
appends it (`items_set`), moving `tail` on drops the first (`items_succ`).  Blocks
go in and out in two pieces, cut at the end of the list (`put`,
`items_eq_pieces`); `items_put` and `drop_items` are the same laws for them.
-/

namespace Ring

variable {α : Type*} {cells : List α} {tail n : Nat}

/-- The contents of `n` cells from `tail` on. -/
def items (cells : List α) (tail n : Nat) : List α :=
  (List.range n).filterMap fun j => cells[(tail + j) % cells.length]?

@[simp] theorem items_zero (cells : List α) (tail : Nat) : items cells tail 0 = [] := rfl

theorem items_succ_last (cells : List α) (tail n : Nat) :
    items cells tail (n + 1) =
      items cells tail n ++ (cells[(tail + n) % cells.length]?).toList := by
  rw [items, List.range_succ, List.filterMap_append]
  cases h : cells[(tail + n) % cells.length]? <;> simp [items, h]

/-- The first item, and those from the next cell on. -/
theorem items_succ {x : α} (h : cells[tail % cells.length]? = some x) (n : Nat) :
    items cells tail (n + 1) = x :: items cells (tail + 1) n := by
  have hrest : (fun j => cells[(tail + j) % cells.length]?) ∘ Nat.succ =
      fun j => cells[(tail + 1 + j) % cells.length]? := by
    funext j
    simp only [Function.comp, Nat.succ_eq_add_one]
    rw [show tail + (j + 1) = tail + 1 + j by omega]
  rw [items, List.range_succ_eq_map, List.filterMap_cons, Nat.add_zero, h, List.filterMap_map, hrest]
  rfl

/-- Where the count starts is read modulo the size. -/
theorem items_mod (cells : List α) (tail n : Nat) :
    items cells (tail % cells.length) n = items cells tail n := by
  simp only [items, Nat.mod_add_mod]

theorem length_items (h : 0 < cells.length) (tail n : Nat) : (items cells tail n).length = n := by
  induction n with
  | zero => rfl
  | succ n ih =>
      have hlt := Nat.mod_lt (tail + n) h
      rw [items_succ_last, List.length_append, ih, List.getElem?_eq_getElem hlt]
      rfl

/-- Fewer cells than there are do not come round to where they began. -/
theorem add_mod_ne {len j k : Nat} (hjk : j < k) (hk : k < j + len) :
    (tail + j) % len ≠ (tail + k) % len := by
  intro h
  have hmod : (tail + j) ≡ (tail + k) [MOD len] := h
  have hdvd := (Nat.modEq_iff_dvd' (by omega)).mp hmod
  have hle := Nat.le_of_dvd (by omega) hdvd
  omega

/-- **Writing** the cell behind the items appends to them. -/
theorem items_set (hn : n < cells.length) (x : α) :
    items (cells.set ((tail + n) % cells.length) x) tail (n + 1) = items cells tail n ++ [x] := by
  have hlt := Nat.mod_lt (tail + n) (Nat.zero_lt_of_lt hn)
  have hold : items (cells.set ((tail + n) % cells.length) x) tail n = items cells tail n := by
    rw [items, items, List.length_set]
    refine List.filterMap_congr fun j hj => ?_
    have hjn := List.mem_range.mp hj
    exact List.getElem?_set_ne (add_mod_ne hjn (by omega)).symm
  rw [items_succ_last, hold, List.length_set, List.getElem?_set_self hlt]
  rfl

/-- Changing every cell changes the items. -/
theorem items_map {β : Type*} (f : α → β) (cells : List α) (tail n : Nat) :
    items (cells.map f) tail n = (items cells tail n).map f := by
  rw [items, items, List.map_filterMap, List.length_map]
  simp only [List.getElem?_map]

/-! ## blocks -/

variable {ds : List α} {off k : Nat}

theorem items_eq_take_rotate (hn : n ≤ cells.length) :
    items cells tail n = (cells.rotate tail).take n := by
  induction n with
  | zero => simp
  | succ n ih =>
      rw [items_succ_last, ih (by omega), List.take_add_one, List.getElem?_rotate (by omega),
        Nat.add_comm tail n]

/-- The first of the items. -/
theorem take_items (hk : k ≤ n) (hn : n ≤ cells.length) :
    (items cells tail n).take k = items cells tail k := by
  rw [items_eq_take_rotate hn, items_eq_take_rotate (by omega), List.take_take, Nat.min_eq_left hk]

/-- Moving `tail` on drops the items it passes. -/
theorem drop_items (hk : k ≤ n) (hn : n ≤ cells.length) :
    (items cells tail n).drop k = items cells (tail + k) (n - k) := by
  have hrot : (cells.rotate tail).rotate k =
      (cells.rotate tail).drop k ++ (cells.rotate tail).take k :=
    List.rotate_eq_drop_append_take (by rw [List.length_rotate]; omega)
  rw [items_eq_take_rotate hn, items_eq_take_rotate (by omega), List.drop_take,
    ← List.rotate_rotate, hrot, List.take_append_of_le_length]
  rw [List.length_drop, List.length_rotate]
  omega

/-- The items from `off` on are copied out in two pieces, the second from the
first cell on. -/
theorem items_eq_pieces (hoff : off < cells.length) (hn : n ≤ cells.length) :
    items cells off n =
      (cells.drop off).take n ++ cells.take (n - (cells.length - off)) := by
  rw [items_eq_take_rotate hn, List.rotate_eq_drop_append_take (by omega), List.take_append,
    List.take_take, List.length_drop, Nat.min_eq_left (by omega)]

/-- The cells from `off` on are overwritten in two pieces, the second from the
first cell on. -/
def put (cells : List α) (off : Nat) (ds : List α) : List α :=
  Bytes.splice (Bytes.splice cells off (ds.take (cells.length - off))) 0
    (ds.drop (cells.length - off))

theorem put_of_le (h : ds.length ≤ cells.length - off) :
    put cells off ds = Bytes.splice cells off ds := by
  rw [put, List.take_of_length_le h, List.drop_of_length_le h, Bytes.splice_nil]

@[simp] theorem length_put (hoff : off < cells.length) (hds : ds.length ≤ cells.length) :
    (put cells off ds).length = cells.length := by
  have hfst : (Bytes.splice cells off (ds.take (cells.length - off))).length = cells.length :=
    Bytes.length_splice (by simp; omega)
  rw [put, Bytes.length_splice _, hfst]
  rw [hfst, List.length_drop]
  omega

/-- Seen from `off`, the new contents come first and the rest is as it was. -/
theorem rotate_put (hoff : off < cells.length) (hds : ds.length ≤ cells.length) :
    (put cells off ds).rotate off = ds ++ (cells.rotate off).drop ds.length := by
  rw [List.rotate_eq_drop_append_take (by rw [length_put hoff hds]; omega),
    List.rotate_eq_drop_append_take (by omega)]
  rcases Nat.lt_or_ge (cells.length - off) ds.length with hwrap | hfit
  · obtain ⟨a, b, hab, ha⟩ : ∃ a b, ds = a ++ b ∧ a.length = cells.length - off :=
      ⟨ds.take (cells.length - off), ds.drop (cells.length - off), by simp, by simp; omega⟩
    have hlen : a.length + b.length = ds.length := by rw [hab, List.length_append]
    have hput : put cells off ds = (b ++ (cells.take off).drop b.length) ++ a := by
      rw [put, hab, List.take_left' ha, List.drop_left' ha, Bytes.splice, Bytes.splice,
        List.drop_of_length_le (by omega), List.append_nil, Nat.zero_add,
        List.drop_append_of_le_length (by simp; omega)]
      simp
    have hfront : (b ++ (cells.take off).drop b.length).length = off := by
      simp
      omega
    have hrest : (cells.drop off ++ cells.take off).drop ds.length =
        (cells.take off).drop b.length := by
      rw [List.drop_append, List.drop_of_length_le (by simp; omega), List.nil_append,
        List.length_drop]
      congr 1
      omega
    rw [hput, List.drop_left' hfront, List.take_left' hfront, hrest, hab, List.append_assoc]
  · rw [put_of_le hfit, Bytes.splice, List.append_assoc, List.drop_left' (by simp; omega),
      List.take_left' (by simp; omega), List.drop_append_of_le_length (by simp; omega),
      List.drop_drop, List.append_assoc]

/-- **Writing** a block behind the items appends it to them. -/
theorem items_put (hn : n + ds.length ≤ cells.length) :
    items (put cells ((tail + n) % cells.length) ds) tail (n + ds.length) =
      items cells tail n ++ ds := by
  rcases Nat.eq_zero_or_pos cells.length with hzero | hpos
  · obtain rfl : ds = [] := List.length_eq_zero_iff.mp (by omega)
    simp [put]
  have hoff := Nat.mod_lt (tail + n) hpos
  have hds : ds.length ≤ cells.length := by omega
  have hlen := length_put hoff hds
  -- both sides of the write seen from `tail`: its first `n` cells stay behind the others
  have hrot := rotate_put hoff hds
  generalize hput : put cells ((tail + n) % cells.length) ds = cells' at hlen hrot ⊢
  have hfrom : ∀ xs : List α, xs.length = cells.length →
      xs.rotate ((tail + n) % cells.length) = (xs.rotate tail).drop n ++ (xs.rotate tail).take n := by
    intro xs hxs
    rw [← hxs, List.rotate_mod, ← List.rotate_rotate, List.rotate_eq_drop_append_take]
    rw [List.length_rotate]
    omega
  rw [hfrom cells' hlen, hfrom cells rfl, List.drop_append_of_le_length (by simp; omega),
    List.drop_drop, ← List.append_assoc] at hrot
  obtain ⟨hdrop, htake⟩ := List.append_inj hrot (by simp; omega)
  rw [items_eq_take_rotate (by omega), items_eq_take_rotate (by omega), List.take_add, htake, hdrop,
    List.take_left]

end Ring
