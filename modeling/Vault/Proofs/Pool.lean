import Vault.Pool

/-!
# `Vault/Proofs/Pool.lean` — the pool loses no chunk

Of chunks with different numbers, **every operation of the pool only moves them about:** what was
in the pool or was put in is in the pool afterwards or was handed back. The pool says so as an
equation or a permutation of lists, so that whatever holds of all chunks in memory goes on to hold.
And there are never more of them than there is room for beside the chunk that is being worked on.
-/

set_option autoImplicit false

namespace Vault

namespace Chunk

/-- Is there a dirty chunk with that number? -/
def Unwritten (chunks : List Chunk) (i : Nat) : Prop :=
  ∃ x ∈ chunks, x.seqnum = i ∧ x.dirty = true

/-- Is there no chunk with that number? -/
def Absent (chunks : List Chunk) (i : Nat) : Prop := ∀ x ∈ chunks, x.seqnum ≠ i

variable {x : Chunk} {xs ys : List Chunk} {i : Nat}

theorem Unwritten.mono (h : Unwritten xs i) (hsub : ∀ x ∈ xs, x.dirty = true → x ∈ ys) :
    Unwritten ys i := by
  obtain ⟨x, hx, hi, hdirty⟩ := h
  exact ⟨x, hsub x hx hdirty, hi, hdirty⟩

theorem Absent.mono (h : Absent ys i) (hsub : ∀ x ∈ xs, x ∈ ys) : Absent xs i :=
  fun x hx => h x (hsub x hx)

/-- Among chunks with different numbers, the number of one belongs to no other. -/
theorem absent_of_nodup (h : ((xs ++ ys).map (·.seqnum)).Nodup) (hx : x ∈ xs) :
    Absent ys x.seqnum := by
  rw [List.map_append, List.nodup_append] at h
  exact fun y hy heq => h.2.2 _ (List.mem_map_of_mem hx) _ (List.mem_map_of_mem hy) heq.symm

end Chunk

namespace Pool

variable {p : Pool} {x y : Chunk} {xs ys : List Chunk} {i : Nat}

/-- A chunk takes the place of the one with its number and goes in at the end. The oldest one makes
way if there is no room. -/
theorem entries_insert_eq (p : Pool) (x : Chunk) :
    (p.insert x).1.toList ++ (p.insert x).2.entries
      = p.entries.filter (fun y => y.seqnum != x.seqnum) ++ [x] := by
  simp only [insert]
  split
  · cases p.entries.filter fun y => y.seqnum != x.seqnum <;> rfl
  · rfl

/-- A new chunk takes the place of none. -/
theorem entries_insert (h : Chunk.Absent p.entries x.seqnum) :
    (p.insert x).1.toList ++ (p.insert x).2.entries = p.entries ++ [x] := by
  have hfilter : p.entries.filter (fun y => y.seqnum != x.seqnum) = p.entries := by
    rw [List.filter_eq_self]
    intro y hy
    simpa using h y hy
  rw [entries_insert_eq, hfilter]

/-- What is taken out is the chunk with that number. -/
theorem seqnum_of_take (h : (p.take i).1 = some x) : x.seqnum = i := by
  simpa using List.find?_some h

theorem absent_of_take (h : (p.take i).1 = none) : Chunk.Absent p.entries i := by
  intro y hy
  simpa using List.find?_eq_none.mp h y hy

theorem perm_take (p : Pool) (i : Nat) :
    ((p.take i).1.toList ++ (p.take i).2.entries).Perm p.entries := by
  simp only [take]
  -- by induction on the entries: the chunk is the first one or lies behind it
  induction p.entries with
  | nil => exact List.Perm.refl _
  | cons y ys ih =>
    by_cases hy : (y.seqnum == i) = true
    · simp [hy]
    · have hfind : (y :: ys).find? (fun c => c.seqnum == i) = ys.find? fun c => c.seqnum == i :=
        List.find?_cons_of_neg hy
      have herase : (y :: ys).eraseP (fun c => c.seqnum == i)
          = y :: ys.eraseP fun c => c.seqnum == i := List.eraseP_cons_of_neg hy
      rw [hfind, herase]
      exact List.perm_middle.trans (ih.cons y)

/-- A chunk is put in the place of the one with its number. -/
theorem entries_refresh (h : p.entries = xs ++ x :: ys) (hy : y.seqnum = x.seqnum)
    (habsent : Chunk.Absent (xs ++ ys) x.seqnum) : (p.refresh y).entries = xs ++ y :: ys := by
  -- chunks with other numbers are not touched
  have hsame {zs : List Chunk} (hzs : Chunk.Absent zs x.seqnum) :
      zs.map (fun z => if z.seqnum = y.seqnum then y else z) = zs := by
    rw [List.map_congr_left (g := id), List.map_id]
    intro z hz
    rw [hy, if_neg (hzs z hz)]
    rfl
  simp only [refresh, h, List.map_append, List.map_cons]
  rw [hsame (habsent.mono fun z => List.mem_append_left _),
    hsame (habsent.mono fun z => List.mem_append_right _), if_pos hy.symm]

/-- Making room hands back the oldest chunks. -/
theorem entries_setCapacity (p : Pool) (capacity : Nat) :
    (p.setCapacity capacity).1 ++ (p.setCapacity capacity).2.entries = p.entries :=
  List.take_append_drop _ _

/-! ## Room

The capacity counts the current chunk as well, so that the pool itself always stays below it. One
chunk more makes at most one make way. -/

@[simp] theorem capacity_insert (p : Pool) (x : Chunk) : (p.insert x).2.capacity = p.capacity := by
  simp only [insert]
  split <;> rfl

/-- Making way keeps room for the chunk that is being worked on. -/
theorem size_insert_lt (x : Chunk) (h : p.size < p.capacity) :
    (p.insert x).2.size < (p.insert x).2.capacity := by
  -- the chunk with the same number is gone before the new one is counted
  have hfilter : (p.entries.filter fun y => y.seqnum != x.seqnum).length ≤ p.size :=
    List.length_filter_le ..
  simp only [insert]
  split
  · simp only [size, List.length_tail, List.length_append, List.length_singleton]
    omega
  · rename_i hroom
    exact Nat.lt_of_not_le hroom

/-- Only as many chunks make way as there are too many. -/
theorem length_evicted_insert (h : p.size < p.capacity) (x : Chunk) :
    (p.insert x).1.toList.length
      = (p.entries.filter (fun y => y.seqnum != x.seqnum) ++ [x]).length + 1
        - (p.insert x).2.capacity := by
  have hfilter : (p.entries.filter fun y => y.seqnum != x.seqnum).length ≤ p.size :=
    List.length_filter_le ..
  -- there is a chunk to hand back: the new one, if no other
  have hfirst : (p.entries.filter (fun y => y.seqnum != x.seqnum) ++ [x]).head?.toList.length
      = 1 := by
    cases p.entries.filter fun y => y.seqnum != x.seqnum <;> rfl
  rw [capacity_insert, List.length_append, List.length_singleton]
  simp only [insert, List.length_append, List.length_singleton]
  split
  · rw [hfirst]
    omega
  · rw [Option.toList_none, List.length_nil]
    omega

theorem size_take_le (p : Pool) (i : Nat) : (p.take i).2.size ≤ p.size := by
  have hlen := (p.perm_take i).length_eq
  rw [List.length_append] at hlen
  simp only [size]
  omega

theorem size_setCapacity_lt (p : Pool) (capacity : Nat) :
    (p.setCapacity capacity).2.size < (p.setCapacity capacity).2.capacity := by
  simp only [setCapacity, size, List.length_drop]
  omega

theorem length_evicted_setCapacity (p : Pool) (capacity : Nat) :
    (p.setCapacity capacity).1.length = p.size + 1 - (p.setCapacity capacity).2.capacity := by
  simp only [setCapacity, size, List.length_take]
  omega

/-- A chunk takes the place of the one with its number. -/
theorem nodup_insert (x : Chunk) (h : (p.entries.map (·.seqnum)).Nodup) :
    ((p.insert x).2.entries.map (·.seqnum)).Nodup := by
  -- the number of the new chunk was just taken out
  have hall : ((p.entries.filter (fun y => y.seqnum != x.seqnum) ++ [x]).map (·.seqnum)).Nodup := by
    rw [List.map_append, List.nodup_append]
    refine ⟨(List.filter_sublist.map _).nodup h, by simp, ?_⟩
    intro i hi j hj
    obtain ⟨y, hy, rfl⟩ := List.mem_map.mp hi
    obtain rfl : j = x.seqnum := by simpa using hj
    simpa using (List.mem_filter.mp hy).2
  simp only [insert]
  split
  · exact ((List.tail_sublist _).map _).nodup hall
  · exact hall

theorem sublist_take (p : Pool) (i : Nat) : (p.take i).2.entries.Sublist p.entries :=
  List.eraseP_sublist

/-- Of chunks with different numbers, none with the number of the one taken out is left. -/
theorem absent_take (i : Nat) (h : (p.entries.map (·.seqnum)).Nodup) :
    Chunk.Absent (p.take i).2.entries i := by
  have hall : (((p.take i).1.toList ++ (p.take i).2.entries).map (·.seqnum)).Nodup :=
    ((p.perm_take i).map _).nodup_iff.mpr h
  cases hx : (p.take i).1 with
  | none => exact (absent_of_take hx).mono fun y hy => (p.sublist_take i).subset hy
  | some x =>
    obtain rfl := seqnum_of_take hx
    exact Chunk.absent_of_nodup hall (by simp [hx])

theorem map_seqnum_refresh (p : Pool) (x : Chunk) :
    (p.refresh x).entries.map (·.seqnum) = p.entries.map (·.seqnum) := by
  simp only [refresh, List.map_map]
  refine List.map_congr_left fun y _ => ?_
  simp only [Function.comp]
  split
  · rename_i h
    exact h.symm
  · rfl

end Pool

end Vault
