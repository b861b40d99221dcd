import Vault.Proofs.Pool

/-!
# `Vault/Proofs/Whereabouts.lean` — what becomes of every chunk that is put into a pool

A pool is used by a sequence of actions, and time is counted by them. A chunk that is put in at some
time leaves in one of four ways: it is taken out, it makes way, a chunk with the same number is put
in its place, or the pool is cleared. **Of these, exactly one happens to it, and it happens at
exactly one time, or it is still in the pool** (`Pool.keeps_account`).

What carries this is an order: the pooled chunks stand in the order of the times at which they were
put in last (`Pool.Tidy`). No two of them have the same number then, and those that make way, being
the first ones, are those that were put in longest ago.
-/

set_option autoImplicit false

namespace Vault.Pool

/-! ## Actions

An action is told by what it does to the pool and by what it hands back. Times are the places of
actions in the list, so that `before` at a time is the pool in front of that action. -/

/-- What is done with a pool. -/
inductive Action where
  /-- A chunk is put in. -/
  | insert (chunk : Chunk)
  /-- The chunk with a number is taken out. -/
  | take (seqnum : Nat)
  /-- The capacity is changed. -/
  | setCapacity (capacity : Nat)
  /-- All chunks are forgotten. -/
  | clear
  /-- All chunks are taken out and put back. -/
  | refill

namespace Action

/-- The chunks that are handed back, and the pool behind the action. -/
def run (p : Pool) : Action → List Chunk × Pool
  | insert chunk => ((p.insert chunk).1.toList, (p.insert chunk).2)
  | take seqnum => ((p.take seqnum).1.toList, (p.take seqnum).2)
  | setCapacity capacity => p.setCapacity capacity
  | clear => ([], p.clear)
  | refill => ([], p.drain.2.restore p.drain.1)

/-- The chunks that are not lost by the action: those of the pool that are neither replaced nor
forgotten, and the one that is put in. -/
def kept (p : Pool) : Action → List Chunk
  | insert chunk => p.entries.filter (fun x => x.seqnum != chunk.seqnum) ++ [chunk]
  | clear => []
  | _ => p.entries

/-- Does a chunk that is handed back make way for others? -/
def evicts : Action → Bool
  | insert _ | setCapacity _ => true
  | _ => false

end Action

/-- The capacity that was asked for last. -/
def asked : (capacity : Nat) → List Action → Nat
  | capacity, [] => capacity
  | _, .setCapacity capacity :: actions => asked capacity actions
  | capacity, _ :: actions => asked capacity actions

section
variable (capacity : Nat) (actions : List Action)

/-- The pool in front of the action with a time. -/
def before (time : Nat) : Pool :=
  (actions.take time).foldl (fun p action => (action.run p).2) (new capacity)

/-- The pool behind all actions. -/
def after : Pool := before capacity actions actions.length

/-- The chunks that are handed back at a time. -/
def handed (time : Nat) : List Chunk :=
  match actions[time]? with
  | some action => (action.run (before capacity actions time)).1
  | none => []

end

/-! ## When a chunk was put in

A chunk may be put in more than once, so it is not enough to say which chunk is meant: `LastPut`
names the time too. -/

/-- The last action in front of a time that puts in a chunk with this number puts in this chunk, and
does so at `put`. -/
structure LastPut (actions : List Action) (x : Chunk) (put time : Nat) : Prop where
  lt : put < time
  puts : actions[put]? = some (.insert x)
  last : ∀ u y, put < u → u < time → actions[u]? = some (.insert y) → y.seqnum ≠ x.seqnum

/-- What becomes of a chunk that is put in, and at which time. -/
inductive Fate where
  /-- It is still in the pool. -/
  | pooled
  /-- It is taken out. -/
  | taken (time : Nat)
  /-- It makes way. -/
  | evicted (time : Nat)
  /-- A chunk with its number is put in its place. -/
  | replaced (time : Nat)
  /-- It is forgotten with all others. -/
  | dropped (time : Nat)
deriving DecidableEq

/-- When it happens. What is still in the pool is there behind all actions. -/
def Fate.moment (actions : List Action) : Fate → Nat
  | .pooled => actions.length
  | .taken time | .evicted time | .replaced time | .dropped time => time

/-- What it means that this becomes of the chunk that was put in at `put`. That the chunk which is
found is this one, and not another one with the same number, is what `LastPut` says. -/
def Meets (capacity : Nat) (actions : List Action) (put : Nat) (x : Chunk) : Fate → Prop
  | .pooled => LastPut actions x put actions.length ∧ x ∈ (after capacity actions).entries
  | .taken time => LastPut actions x put time ∧ actions[time]? = some (.take x.seqnum) ∧
      x ∈ handed capacity actions time
  | .evicted time => LastPut actions x put (time + 1) ∧
      (∃ action, actions[time]? = some action ∧ action.evicts = true) ∧
      x ∈ handed capacity actions time
  | .replaced time => LastPut actions x put time ∧ x ∈ (before capacity actions time).entries ∧
      ∃ y, actions[time]? = some (.insert y) ∧ y.seqnum = x.seqnum
  | .dropped time => LastPut actions x put time ∧ x ∈ (before capacity actions time).entries ∧
      actions[time]? = some .clear

/-- One chunk was put in before another one. -/
def PutBefore (actions : List Action) (time : Nat) (x y : Chunk) : Prop :=
  ∃ put put', LastPut actions x put time ∧ LastPut actions y put' time ∧ put < put'

variable {capacity put put' time : Nat} {actions : List Action} {action : Action} {p : Pool}
  {x y : Chunk}

namespace LastPut

/-- Of the chunks with a number, only one was put in last. -/
theorem unique (hx : LastPut actions x put time) (hy : LastPut actions y put' time)
    (h : x.seqnum = y.seqnum) : put = put' ∧ x = y := by
  rcases Nat.lt_trichotomy put put' with hlt | heq | hgt
  · exact absurd h.symm (hx.last put' y hlt hy.lt hy.puts)
  · subst heq
    have hsame := hx.puts.symm.trans hy.puts
    simp only [Option.some.injEq, Action.insert.injEq] at hsame
    exact ⟨rfl, hsame⟩
  · exact absurd h (hy.last put x hgt hx.lt hx.puts)

/-- An action that puts in no chunk with the number changes nothing about it. -/
theorem step (hx : LastPut actions x put time) (haction : actions[time]? = some action)
    (h : ∀ y, action = .insert y → y.seqnum ≠ x.seqnum) : LastPut actions x put (time + 1) where
  lt := Nat.lt_succ_of_lt hx.lt
  puts := hx.puts
  last := by
    intro u y hput hu hy
    rcases Nat.lt_succ_iff_lt_or_eq.mp hu with hlt | heq
    · exact hx.last u y hput hlt hy
    · subst heq
      rw [haction, Option.some.injEq] at hy
      exact h y hy

/-- A chunk that is put in now is put in last. -/
theorem now (haction : actions[time]? = some (.insert x)) :
    LastPut actions x time (time + 1) where
  lt := Nat.lt_succ_self time
  puts := haction
  last := by
    intro u y hlt hgt _
    omega

theorem mono (hx : LastPut actions x put time) {u : Nat} (hput : put < u) (hu : u ≤ time) :
    LastPut actions x put u :=
  ⟨hput, hx.puts, fun v y hv hvu hy => hx.last v y hv (Nat.lt_of_lt_of_le hvu hu) hy⟩

end LastPut

theorem PutBefore.ne (h : PutBefore actions time x y) : x.seqnum ≠ y.seqnum := by
  obtain ⟨_, _, hx, hy, hlt⟩ := h
  intro heq
  exact Nat.ne_of_lt hlt (hx.unique hy heq).1

/-! ## One action

Every action is measured against `kept`, the chunks that it does not lose. What is handed back
and what stays make that up, and those that make way are taken from its front. -/

theorem refill_eq (p : Pool) : p.drain.2.restore p.drain.1 = p := by
  simp [drain, restore]

/-- **An action moves chunks about and changes none:** what is kept is handed back or stays. -/
theorem Action.perm_run (action : Action) (p : Pool) :
    ((action.run p).1 ++ (action.run p).2.entries).Perm (action.kept p) := by
  cases action with
  | insert chunk =>
    simp only [run, kept, entries_insert_eq]
    exact List.Perm.refl _
  | take seqnum => exact p.perm_take seqnum
  | setCapacity capacity =>
    simp only [run, kept, entries_setCapacity]
    exact List.Perm.refl _
  | clear => exact List.Perm.refl _
  | refill =>
    simp only [run, kept, refill_eq]
    exact List.Perm.refl _

/-- Those that make way are the first ones. -/
theorem Action.append_of_evicts (h : action.evicts = true) (p : Pool) :
    (action.run p).1 ++ (action.run p).2.entries = action.kept p := by
  cases action with
  | insert chunk => exact p.entries_insert_eq chunk
  | setCapacity capacity => exact p.entries_setCapacity capacity
  | take seqnum => simp [evicts] at h
  | clear => simp [evicts] at h
  | refill => simp [evicts] at h

/-- What stays, stays in its order. -/
theorem Action.sublist_run (action : Action) (p : Pool) :
    (action.run p).2.entries.Sublist (action.kept p) := by
  cases action with
  | insert chunk =>
    rw [← append_of_evicts rfl]
    exact List.sublist_append_right _ _
  | take seqnum => exact p.sublist_take seqnum
  | setCapacity capacity =>
    rw [← append_of_evicts rfl]
    exact List.sublist_append_right _ _
  | clear => exact List.Sublist.refl _
  | refill =>
    simp only [run, kept, refill_eq]
    exact List.Sublist.refl _

/-- There is room for the chunk that is being worked on, and no more room is made than is needed. -/
theorem Action.size_run_lt (h : p.size < p.capacity) (action : Action) :
    (action.run p).2.size < (action.run p).2.capacity := by
  cases action with
  | insert chunk => exact size_insert_lt chunk h
  | take seqnum => exact Nat.lt_of_le_of_lt (p.size_take_le seqnum) h
  | setCapacity capacity => exact p.size_setCapacity_lt capacity
  | clear => exact Nat.lt_of_le_of_lt (Nat.zero_le _) h
  | refill => simpa only [run, refill_eq] using h

/-- As many make way as are too many beside the chunk that is being worked on. -/
theorem Action.length_evicted (h : p.size < p.capacity) (hevicts : action.evicts = true) :
    (action.run p).1.length = (action.kept p).length + 1 - (action.run p).2.capacity := by
  cases action with
  | insert chunk => exact length_evicted_insert h chunk
  | setCapacity capacity => exact p.length_evicted_setCapacity capacity
  | take seqnum => simp [evicts] at hevicts
  | clear => simp [evicts] at hevicts
  | refill => simp [evicts] at hevicts

/-! ## The order of the pooled chunks

The order is what keeps the account: the first entry is the one that was put in longest ago. An
action takes entries out, in whatever place, or puts one in at the end. -/

/-- **The pool at a time:** there is room for the chunk that is being worked on, each chunk was put
in at some time, and they stand in the order of these times. -/
structure Tidy (actions : List Action) (time : Nat) (p : Pool) : Prop where
  room : p.size < p.capacity
  put : ∀ x ∈ p.entries, ∃ put, LastPut actions x put time
  ordered : p.entries.Pairwise (PutBefore actions time)

namespace Tidy

theorem nodup (h : Tidy actions time p) : p.seqnums.Nodup := by
  rw [seqnums, List.Nodup, List.pairwise_map]
  exact h.ordered.imp fun hbefore => hbefore.ne

/-- Of the chunks of the pool, those with other numbers than one that is put in keep their times. -/
theorem others (h : Tidy actions time p) (haction : actions[time]? = some action)
    {xs : List Chunk} (hsub : xs.Sublist p.entries)
    (hother : ∀ x ∈ xs, ∀ y, action = .insert y → y.seqnum ≠ x.seqnum) :
    (∀ x ∈ xs, ∃ put < time, LastPut actions x put (time + 1)) ∧
      xs.Pairwise (PutBefore actions (time + 1)) := by
  constructor
  · intro x hx
    obtain ⟨put, hput⟩ := h.put x (hsub.subset hx)
    exact ⟨put, hput.lt, hput.step haction (hother x hx)⟩
  · refine (h.ordered.sublist hsub).imp_of_mem ?_
    intro x y hx hy hbefore
    obtain ⟨put, put', hput, hput', hlt⟩ := hbefore
    exact ⟨put, put', hput.step haction (hother x hx), hput'.step haction (hother y hy), hlt⟩

/-- What is kept by an action stands in the order of the times behind it. -/
theorem kept (h : Tidy actions time p) (haction : actions[time]? = some action) :
    (∀ x ∈ action.kept p, ∃ put, LastPut actions x put (time + 1)) ∧
      (action.kept p).Pairwise (PutBefore actions (time + 1)) := by
  -- an action that puts nothing in leaves the times of all chunks alone
  have hall (hno : ∀ y, action ≠ .insert y) :
      (∀ x ∈ p.entries, ∃ put, LastPut actions x put (time + 1)) ∧
        p.entries.Pairwise (PutBefore actions (time + 1)) := by
    obtain ⟨hput, hordered⟩ := h.others haction (List.Sublist.refl _) fun _ _ y hy =>
      absurd hy (hno y)
    exact ⟨fun x hx => (hput x hx).imp fun _ hx => hx.2, hordered⟩
  cases action with
  | insert chunk =>
    have hnow := LastPut.now haction
    have hne : ∀ x ∈ p.entries.filter (fun x => x.seqnum != chunk.seqnum), ∀ y,
        Action.insert chunk = .insert y → y.seqnum ≠ x.seqnum := by
      intro x hx y hy
      cases hy
      have hother := (List.mem_filter.mp hx).2
      rw [bne_iff_ne] at hother
      exact hother.symm
    obtain ⟨hput, hordered⟩ := h.others haction List.filter_sublist hne
    constructor
    · intro x hx
      rcases List.mem_append.mp hx with hother | hchunk
      · exact (hput x hother).imp fun _ hx => hx.2
      · obtain rfl := List.mem_singleton.mp hchunk
        exact ⟨time, hnow⟩
    · -- what is put in now comes behind everything else
      refine List.pairwise_append.mpr ⟨hordered, List.pairwise_singleton _ _, ?_⟩
      intro x hx y hy
      obtain rfl := List.mem_singleton.mp hy
      obtain ⟨put, hlt, hx⟩ := hput x hx
      exact ⟨put, time, hx, hnow, hlt⟩
  | take seqnum => exact hall (by simp)
  | setCapacity capacity => exact hall (by simp)
  | refill => exact hall (by simp)
  | clear => simp [Action.kept]

/-- **Every action leaves the pool in order.** -/
theorem step (h : Tidy actions time p) (haction : actions[time]? = some action) :
    Tidy actions (time + 1) (action.run p).2 where
  room := action.size_run_lt h.room
  put := by
    intro x hx
    exact (h.kept haction).1 x ((action.sublist_run p).subset hx)
  ordered := (h.kept haction).2.sublist (action.sublist_run p)

/-- No chunk is handed back and stays. -/
theorem disjoint (h : Tidy actions time p) (haction : actions[time]? = some action)
    (hx : x ∈ (action.run p).1) : x ∉ (action.run p).2.entries := by
  have hordered := (h.kept haction).2
  have hnodup : (action.kept p).Nodup :=
    List.Pairwise.imp (fun hbefore heq => hbefore.ne (congrArg Chunk.seqnum heq)) hordered
  have happend := (action.perm_run p).nodup_iff.mpr hnodup
  intro hstays
  exact (List.nodup_append.mp happend).2.2 x hx x hstays rfl

end Tidy

theorem before_succ (haction : actions[time]? = some action) :
    before capacity actions (time + 1) = (action.run (before capacity actions time)).2 := by
  simp [before, List.take_add_one, haction]

theorem handed_eq (haction : actions[time]? = some action) :
    handed capacity actions time = (action.run (before capacity actions time)).1 := by
  simp [handed, haction]

/-- **The pool is in order at all times.** The induction is on the time, with one action for each
step. -/
theorem tidy_before (capacity : Nat) (actions : List Action) (time : Nat)
    (h : time ≤ actions.length) : Tidy actions time (before capacity actions time) := by
  induction time with
  | zero =>
    refine ⟨?_, ?_, ?_⟩
    · simp only [before, List.take_zero, List.foldl_nil, new, size, List.length_nil]
      omega
    · simp [before, new]
    · simp [before, new]
  | succ time ih =>
    have haction := List.getElem?_eq_getElem (Nat.lt_of_succ_le h)
    rw [before_succ haction]
    exact (ih (Nat.le_of_succ_le h)).step haction

theorem after_eq (capacity : Nat) (actions : List Action) :
    after capacity actions = actions.foldl (fun p action => (action.run p).2) (new capacity) := by
  rw [after, before, List.take_length]

/-- The capacity is the one that was asked for last, but there is room for the chunk that is being
worked on. -/
theorem capacity_after (capacity : Nat) (actions : List Action) :
    (after capacity actions).capacity = max (asked capacity actions) 1 := by
  have hfold : ∀ p : Pool, p.capacity = max capacity 1 →
      (actions.foldl (fun p action => (action.run p).2) p).capacity
        = max (asked capacity actions) 1 := by
    induction actions generalizing capacity with
    | nil => exact fun p hp => hp
    | cons action actions ih =>
      intro p hp
      cases action with
      | insert chunk => exact ih capacity _ ((p.capacity_insert chunk).trans hp)
      | take seqnum => exact ih capacity _ hp
      | setCapacity capacity => exact ih capacity _ rfl
      | clear => exact ih capacity _ hp
      | refill => exact ih capacity _ hp
  rw [after_eq]
  exact hfold (new capacity) rfl

/-! ## What becomes of a chunk

A chunk that is held is followed action by action until one does not leave it there. Nothing
happens to it twice, because what was handed back or lost is not held any more. -/

/-- The chunk that was put in at `put` is in the pool at a time. -/
def Held (capacity : Nat) (actions : List Action) (put : Nat) (x : Chunk) (time : Nat) : Prop :=
  LastPut actions x put time ∧ x ∈ (before capacity actions time).entries

/-- What becomes of a chunk that an action does not leave in the pool. -/
def Action.ending (put time : Nat) (x : Chunk) : Action → Fate
  | insert y => if put < time ∧ y.seqnum = x.seqnum then .replaced time else .evicted time
  | take _ => .taken time
  | setCapacity _ => .evicted time
  | clear => .dropped time
  | refill => .pooled

theorem Action.mem_kept (h : x ∈ action.kept p) : x ∈ p.entries ∨ action = .insert x := by
  cases action with
  | insert chunk =>
    rcases List.mem_append.mp h with hother | hchunk
    · exact .inl (List.mem_filter.mp hother).1
    · exact .inr (by rw [List.mem_singleton.mp hchunk])
  | take seqnum => exact .inl h
  | setCapacity capacity => exact .inl h
  | clear => simp [kept] at h
  | refill => exact .inl h

theorem Action.mem_run (h : x ∈ action.kept p) :
    x ∈ (action.run p).1 ∨ x ∈ (action.run p).2.entries :=
  List.mem_append.mp ((action.perm_run p).mem_iff.mpr h)

namespace Held

/-- A chunk that is in the pool was in it at all times since it was put in. -/
theorem mono (h : Held capacity actions put x time) (htime : time ≤ actions.length) {u : Nat}
    (hput : put < u) (hu : u ≤ time) : Held capacity actions put x u := by
  refine ⟨h.1.mono hput hu, ?_⟩
  induction time with
  -- no time is left between the put and now
  | zero => omega
  | succ time ih =>
    rcases Nat.lt_or_ge time u with hlt | hge
    · obtain rfl : u = time + 1 := by omega
      exact h.2
    · have haction := List.getElem?_eq_getElem (Nat.lt_of_succ_le htime)
      have hearlier : LastPut actions x put time := h.1.mono (by omega) (Nat.le_succ time)
      have hmem := h.2
      rw [before_succ haction] at hmem
      rcases Action.mem_kept ((Action.sublist_run _ _).subset hmem) with hpooled | hinsert
      · exact ih ⟨hearlier, hpooled⟩ (by omega) hge
      · -- if it was put in again, then `put` is not the last time
        rw [hinsert] at haction
        exact absurd rfl (h.1.last time x (by omega) (Nat.lt_succ_self time) haction)

/-- **An action leaves a chunk in the pool, or it ends as befits the action.** -/
theorem next (h : Held capacity actions put x time) (haction : actions[time]? = some action) :
    Held capacity actions put x (time + 1) ∨
      Meets capacity actions put x (action.ending put time x) := by
  obtain ⟨hlast, hmem⟩ := h
  -- unless it is replaced or forgotten, it is kept
  have hkept (hother : ∀ y, action = .insert y → y.seqnum ≠ x.seqnum)
      (hin : x ∈ action.kept (before capacity actions time)) :
      Held capacity actions put x (time + 1) ∨
        LastPut actions x put (time + 1) ∧ x ∈ handed capacity actions time := by
    rcases Action.mem_run hin with hhanded | hstays
    · exact .inr ⟨hlast.step haction hother, handed_eq haction ▸ hhanded⟩
    · exact .inl ⟨hlast.step haction hother, before_succ haction ▸ hstays⟩
  cases action with
  | insert y =>
    -- a chunk with its number takes its place, or another chunk is put in behind it
    by_cases hy : y.seqnum = x.seqnum
    · rw [Action.ending, if_pos ⟨hlast.lt, hy⟩]
      exact .inr ⟨hlast, hmem, y, haction, hy⟩
    · have hin : x ∈ Action.kept (before capacity actions time) (.insert y) := by
        refine List.mem_append_left _ (List.mem_filter.mpr ⟨hmem, ?_⟩)
        simpa using fun heq => hy heq.symm
      rw [Action.ending, if_neg (fun h => hy h.2)]
      refine (hkept (fun z hz => ?_) hin).imp id fun hout => ⟨hout.1, ⟨_, haction, rfl⟩, hout.2⟩
      cases hz
      exact hy
  | take seqnum =>
    refine (hkept (by simp) hmem).imp id fun hout => ⟨hlast, ?_, hout.2⟩
    have hhanded := hout.2
    rw [handed_eq haction] at hhanded
    have hseqnum : x.seqnum = seqnum := seqnum_of_take (Option.mem_toList.mp hhanded)
    rw [haction, hseqnum]
  | setCapacity capacity' =>
    exact (hkept (by simp) hmem).imp id fun hout => ⟨hout.1, ⟨_, haction, rfl⟩, hout.2⟩
  | clear => exact .inr ⟨hlast, hmem, haction⟩
  | refill =>
    refine .inl ⟨hlast.step haction (by simp), ?_⟩
    rw [before_succ haction]
    simpa only [Action.run, refill_eq] using hmem

/-- Something becomes of a chunk that is in the pool. The induction is on the actions to come. -/
theorem exists_fate (h : Held capacity actions put x time) (htime : time ≤ actions.length) :
    ∃ fate, Meets capacity actions put x fate := by
  induction hleft : actions.length - time generalizing time with
  | zero =>
    obtain rfl : time = actions.length := by omega
    exact ⟨.pooled, h⟩
  | succ left ih =>
    have haction := List.getElem?_eq_getElem (show time < actions.length by omega)
    rcases h.next haction with hnext | hends
    · exact ih hnext (by omega) (by omega)
    · exact ⟨_, hends⟩

end Held

/-- Something becomes of every chunk that is put in. It may make way at once. -/
theorem exists_fate (hput : actions[put]? = some (.insert x)) :
    ∃ fate, Meets capacity actions put x fate := by
  have hin : x ∈ Action.kept (before capacity actions put) (.insert x) :=
    List.mem_append_right _ (List.mem_singleton_self x)
  obtain ⟨hlt, -⟩ := List.getElem?_eq_some_iff.mp hput
  rcases Action.mem_run hin with hhanded | hstays
  · exact ⟨.evicted put, LastPut.now hput, ⟨_, hput, rfl⟩, handed_eq hput ▸ hhanded⟩
  · have hheld : Held capacity actions put x (put + 1) :=
      ⟨LastPut.now hput, before_succ hput ▸ hstays⟩
    exact hheld.exists_fate hlt

namespace Meets

variable {fate fate' : Fate}

/-- Something is done with the pool then, unless the chunk is still there. -/
theorem acts (h : Meets capacity actions put x fate) :
    fate = .pooled ∨ ∃ action, actions[fate.moment actions]? = some action := by
  cases fate with
  | pooled => exact .inl rfl
  | taken time => exact .inr ⟨_, h.2.1⟩
  | evicted time => exact .inr (h.2.1.imp fun _ haction => haction.1)
  | replaced time => exact .inr (h.2.2.imp' Action.insert fun _ hy => hy.1)
  | dropped time => exact .inr ⟨_, h.2.2⟩

theorem moment_le (h : Meets capacity actions put x fate) :
    put ≤ fate.moment actions ∧ fate.moment actions ≤ actions.length := by
  constructor
  · cases fate with
    | pooled => exact Nat.le_of_lt h.1.lt
    | taken time => exact Nat.le_of_lt h.1.lt
    | evicted time => exact Nat.le_of_lt_succ h.1.lt
    | replaced time => exact Nat.le_of_lt h.1.lt
    | dropped time => exact Nat.le_of_lt h.1.lt
  · rcases h.acts with rfl | ⟨action, haction⟩
    · exact Nat.le_refl _
    · exact Nat.le_of_lt (List.getElem?_eq_some_iff.mp haction).1

/-- What is handed back was in the pool, or is put in just then. -/
theorem mem_of_handed (haction : actions[time]? = some action)
    (hx : x ∈ handed capacity actions time) :
    x ∈ (before capacity actions time).entries ∨ action = .insert x := by
  rw [handed_eq haction] at hx
  exact Action.mem_kept ((action.perm_run _).subset (List.mem_append_left _ hx))

/-- A chunk is in the pool until it happens. -/
theorem held (h : Meets capacity actions put x fate) (hput : put < fate.moment actions) :
    Held capacity actions put x (fate.moment actions) := by
  cases fate with
  | pooled => exact h
  | taken time =>
    obtain ⟨hlast, haction, hx⟩ := h
    refine ⟨hlast, (mem_of_handed haction hx).resolve_right ?_⟩
    simp
  | evicted time =>
    obtain ⟨hlast, ⟨action, haction, -⟩, hx⟩ := h
    -- if it was put in again at that time, then `put` was not the last time
    refine ⟨hlast.mono hput (Nat.le_succ time), (mem_of_handed haction hx).resolve_right ?_⟩
    intro hinsert
    rw [hinsert] at haction
    exact hlast.last time x hput (Nat.lt_succ_self time) haction rfl
  | replaced time => exact ⟨h.1, h.2.1⟩
  | dropped time => exact ⟨h.1, h.2.1⟩

/-- Behind that, it is not. -/
theorem not_held (h : Meets capacity actions put x fate)
    (hend : fate.moment actions < actions.length) :
    ¬Held capacity actions put x (fate.moment actions + 1) := by
  have hgone {time : Nat} (htime : time < actions.length) (hx : x ∈ handed capacity actions time) :
      ¬Held capacity actions put x (time + 1) := by
    intro hheld
    have haction := List.getElem?_eq_getElem htime
    have hmem := hheld.2
    rw [handed_eq haction] at hx
    rw [before_succ haction] at hmem
    exact (tidy_before capacity actions time (Nat.le_of_lt htime)).disjoint haction hx hmem
  -- handed back at that time, or gone for another reason
  cases fate with
  | pooled => exact absurd hend (Nat.lt_irrefl _)
  | taken time => exact hgone hend h.2.2
  | evicted time => exact hgone hend h.2.2
  | replaced time =>
    obtain ⟨hlast, -, y, haction, hy⟩ := h
    intro hheld
    exact hheld.1.last time y hlast.lt (Nat.lt_succ_self time) haction hy
  | dropped time =>
    intro hheld
    have hmem : x ∈ (before capacity actions (time + 1)).entries := hheld.2
    rw [before_succ h.2.2] at hmem
    simp [Action.run, clear] at hmem

/-- The action says what becomes of the chunks that it ends. -/
theorem eq_ending (h : Meets capacity actions put x fate)
    (haction : actions[fate.moment actions]? = some action) :
    fate = action.ending put (fate.moment actions) x := by
  cases fate with
  | pooled => simp [Fate.moment] at haction
  | taken time =>
    cases h.2.1.symm.trans haction
    rfl
  | evicted time =>
    obtain ⟨hlast, ⟨action', haction', hevicts⟩, -⟩ := h
    cases haction'.symm.trans haction
    cases action with
    | insert y =>
      refine (if_neg fun hreplaces => ?_).symm
      exact hlast.last time y hreplaces.1 (Nat.lt_succ_self time) haction hreplaces.2
    | setCapacity capacity' => rfl
    | take seqnum => simp [Action.evicts] at hevicts
    | clear => simp [Action.evicts] at hevicts
    | refill => simp [Action.evicts] at hevicts
  | replaced time =>
    obtain ⟨hlast, -, y, haction', hy⟩ := h
    cases haction'.symm.trans haction
    exact (if_pos ⟨hlast.lt, hy⟩).symm
  | dropped time =>
    cases h.2.2.symm.trans haction
    rfl

theorem moment_not_lt (h : Meets capacity actions put x fate)
    (h' : Meets capacity actions put x fate') : ¬fate.moment actions < fate'.moment actions := by
  intro hlt
  have hput := h.moment_le.1
  have hend := h'.moment_le.2
  have hheld := h'.held (Nat.lt_of_le_of_lt hput hlt)
  exact h.not_held (Nat.lt_of_lt_of_le hlt hend)
    (hheld.mono hend (Nat.lt_succ_of_le hput) hlt)

/-- **Only one thing becomes of a chunk.** -/
theorem unique (h : Meets capacity actions put x fate) (h' : Meets capacity actions put x fate') :
    fate = fate' := by
  have hmoment : fate.moment actions = fate'.moment actions :=
    Nat.le_antisymm (Nat.le_of_not_lt (h'.moment_not_lt h)) (Nat.le_of_not_lt (h.moment_not_lt h'))
  rcases h.acts with rfl | ⟨action, haction⟩
  · rcases h'.acts with rfl | ⟨action, haction⟩
    · rfl
    · rw [← hmoment] at haction
      simp [Fate.moment] at haction
  · have haction' := haction
    rw [hmoment] at haction'
    rw [h.eq_ending haction, h'.eq_ending haction', hmoment]

/-- What is handed back was put in last among the chunks with its number. -/
theorem lastPut (h : Meets capacity actions put x (.taken time) ∨
    Meets capacity actions put x (.evicted time)) : LastPut actions x put (time + 1) := by
  rcases h with htaken | hevicted
  · exact htaken.1.step htaken.2.1 (by simp)
  · exact hevicted.1

end Meets

/-- What is handed back was put in, and its being handed back is what becomes of it. -/
theorem exists_put (hx : x ∈ handed capacity actions time) :
    ∃ put, Meets capacity actions put x (.taken time) ∨
      Meets capacity actions put x (.evicted time) := by
  cases haction : actions[time]? with
  | none => simp [handed, haction] at hx
  | some action =>
    obtain ⟨htime, -⟩ := List.getElem?_eq_some_iff.mp haction
    have htidy := tidy_before capacity actions time (Nat.le_of_lt htime)
    have hrun := hx
    rw [handed_eq haction] at hrun
    have hkept := (action.perm_run _).subset (List.mem_append_left _ hrun)
    obtain ⟨put, hlast⟩ := (htidy.kept haction).1 x hkept
    cases action with
    | insert y => exact ⟨put, .inr ⟨hlast, ⟨_, haction, rfl⟩, hx⟩⟩
    | setCapacity capacity' => exact ⟨put, .inr ⟨hlast, ⟨_, haction, rfl⟩, hx⟩⟩
    | take seqnum =>
      have hseqnum : x.seqnum = seqnum := seqnum_of_take (Option.mem_toList.mp hrun)
      subst hseqnum
      -- It was not put in by the very action that takes it out.
      have hne : put ≠ time := by
        intro heq
        have hputs := hlast.puts
        rw [heq, haction] at hputs
        simp at hputs
      have hlt : put < time := Nat.lt_of_le_of_ne (Nat.le_of_lt_succ hlast.lt) hne
      exact ⟨put, .inl ⟨hlast.mono hlt (Nat.le_succ time), haction, hx⟩⟩
    | clear => simp [Action.run] at hrun
    | refill => simp [Action.run] at hrun

theorem before_append (capacity : Nat) (actions more : List Action) :
    before capacity (actions ++ more) actions.length = after capacity actions := by
  rw [after, before, before, List.take_left, List.take_length]

/-- **In a pool the oldest chunks make way, and none is lost.** Whatever is done with a pool of any
capacity, there are fewer chunks in it than the capacity that was asked for last, or none; no two of
them have the same number, and they stand in the order in which they were put in last. Where an
action lets chunks make way, these are the first ones, so that they were put in before all that
stay, and they are exactly as many as are too many beside the chunk that is being worked on. To each
chunk that was ever put in exactly one thing happens, at exactly one time: it is still in the pool,
or was taken out, made way, was replaced by one with its number or was forgotten with all others.
And what was handed back at a time was put in at exactly one time. -/
theorem keeps_account (capacity : Nat) (actions : List Action) :
    let p := after capacity actions
    (p.capacity = max (asked capacity actions) 1 ∧ p.size ≤ p.capacity - 1 ∧ p.seqnums.Nodup) ∧
    ((∀ x ∈ p.entries, ∃ put, LastPut actions x put actions.length) ∧
      p.entries.Pairwise (PutBefore actions actions.length)) ∧
    (∀ action : Action, action.evicts = true →
      let out := (action.run p).1
      let p' := (action.run p).2
      out ++ p'.entries = action.kept p ∧
      out.length = (action.kept p).length + 1 - p'.capacity ∧
      ∀ x ∈ out, ∀ y ∈ p'.entries, PutBefore (actions ++ [action]) (actions.length + 1) x y) ∧
    (∀ put x, actions[put]? = some (.insert x) →
      ∃ fate, Meets capacity actions put x fate ∧
        ∀ fate', Meets capacity actions put x fate' → fate' = fate) ∧
    ∀ time x, x ∈ handed capacity actions time →
      ∃ put, (Meets capacity actions put x (.taken time) ∨
          Meets capacity actions put x (.evicted time)) ∧
        ∀ put', (Meets capacity actions put' x (.taken time) ∨
          Meets capacity actions put' x (.evicted time)) → put' = put := by
  intro p
  have htidy : Tidy actions actions.length p :=
    tidy_before capacity actions actions.length (Nat.le_refl _)
  refine ⟨⟨capacity_after capacity actions, Nat.le_sub_one_of_lt htidy.room, htidy.nodup⟩,
    ⟨htidy.put, htidy.ordered⟩, ?evicts, ?fates, ?handed⟩
  case evicts =>
    intro action hevicts
    have haction : (actions ++ [action])[actions.length]? = some action := by simp
    have hnext := tidy_before capacity (actions ++ [action]) actions.length (by simp)
    rw [before_append] at hnext
    have hordered := (hnext.kept haction).2
    rw [← Action.append_of_evicts hevicts] at hordered
    exact ⟨Action.append_of_evicts hevicts p, Action.length_evicted htidy.room hevicts,
      (List.pairwise_append.mp hordered).2.2⟩
  case fates =>
    intro put x hput
    obtain ⟨fate, hfate⟩ : ∃ fate, Meets capacity actions put x fate := exists_fate hput
    exact ⟨fate, hfate, fun fate' hfate' => hfate'.unique hfate⟩
  case handed =>
    intro time x hx
    obtain ⟨put, hput⟩ := exists_put hx
    refine ⟨put, hput, fun put' hput' => ?_⟩
    exact ((Meets.lastPut hput').unique (Meets.lastPut hput) rfl).1

/-- There is room for two chunks. Chunk 1 is put in again, changed, and then chunk 2 is the oldest
one. -/
theorem keeps_account_replaced :
    let x := Chunk.new 1 16
    let actions : List Action := [.insert x, .insert (Chunk.new 2 16),
      .insert { x with dirty := true }, .insert (Chunk.new 3 16)]
    (after 3 actions).seqnums = [1, 3] ∧
    ∀ fate, Meets 3 actions 0 x fate → fate = .replaced 2 := by
  intro x actions
  obtain ⟨-, -, -, hfates, -⟩ := keeps_account 3 actions
  obtain ⟨fate, -, honly⟩ := hfates 0 x rfl
  have hlast : LastPut actions x 0 2 := by
    refine ⟨by decide, rfl, ?_⟩
    intro u y hlt hgt hy
    obtain rfl : u = 1 := by omega
    cases hy
    decide
  have hreplaced : Meets 3 actions 0 x (.replaced 2) := ⟨hlast, by decide, _, rfl, rfl⟩
  refine ⟨by decide, fun fate' hfate' => ?_⟩
  rw [honly _ hfate', honly _ hreplaced]

end Vault.Pool
