import Vault.Container.Raw

/-!
# `Vault/Proofs/Runs.lean` — what a computation on a session comes to

A computation on a session answers or fails, and what it did stays either way. `Op.Does` says both
things of a run at once: what holds when it answered, and what holds when it did not. With every
failure it also says *why*: **a run fails because an armed fault struck, with that fault's error —
or because the content would be too full,** a condition that each statement names. A run that
answers was spared by all faults. So where there are no faults and there is room, there are only
answers (`Does.answers`).

Faults here are *tame*: the call fails and does nothing. A call that falls short by one byte is
another matter, because it does something. `Op.Ends` is what is left where the faults may be of any
kind: what holds after an answer, and what holds after an error, which it looks at.
-/

set_option autoImplicit false

namespace Vault

/-! ## Faults

What faults do to a run is said of their kinds only. How many calls a fault still lets through
changes with every call, so a statement that carried the counts would say of each operation how
many calls it makes. Where the counts do matter, they are followed by hand. -/

/-- The error of a call on which a fault fires. -/
def FaultEffect.error (effect : FaultEffect) (call : RawCall) : Error :=
  match effect with
  | .fileError => .file .unspecified
  | _ => if call = .read then .readFailed else .writeFailed

namespace Fault

/-- What a fault waits for and does, however many calls it lets through before. -/
def kind (fault : Fault) : RawCall × FaultEffect := (fault.call, fault.effect)

/-- The faults let calls fail and nothing else. -/
def Tame (faults : List Fault) : Prop := ∀ k ∈ faults.map kind, k.2 ≠ .short

theorem tame_of_nil {faults : List Fault} (h : faults = []) : Tame faults := by
  simp [h, Tame]

/-- No fault fired. -/
def Spares (before after : List Fault) : Prop := after.map kind = before.map kind

/-- Some faults may have fired. -/
def Worn (before after : List Fault) : Prop := (after.map kind).Sublist (before.map kind)

/-- A fault fired, and this is its error. -/
def Strikes (before : List Fault) (e : Error) (after : List Fault) : Prop :=
  (∃ k ∈ before.map kind, e = k.2.error k.1) ∧ Worn before after ∧ after.length < before.length

/-- Why a run that started with some armed faults failed and left others: a fault struck, or there
was another reason. -/
def Halts (reason : Prop) (before : List Fault) (e : Error) (after : List Fault) : Prop :=
  Strikes before e after ∨ (Worn before after ∧ reason)

section
variable {a b c : List Fault} {e : Error} {reason : Prop}

theorem Spares.trans (h : Spares a b) (h' : Spares b c) : Spares a c := Eq.trans h' h

theorem Spares.worn (h : Spares a b) : Worn a b := by
  have hsame : (b.map kind).Sublist (b.map kind) := List.Sublist.refl _
  exact Eq.subst (motive := fun kinds => (b.map kind).Sublist kinds) h hsame

theorem Spares.nil (h : Spares [] b) : b = [] := by
  simpa [Spares] using h

theorem Worn.refl (faults : List Fault) : Worn faults faults := List.Sublist.refl _

theorem Worn.trans (h : Worn a b) (h' : Worn b c) : Worn a c := List.Sublist.trans h' h

theorem Worn.nil (h : Worn [] b) : b = [] := by
  simpa [Worn] using h

theorem Worn.length_le (h : Worn a b) : b.length ≤ a.length := by
  simpa using List.Sublist.length_le h

theorem Worn.tame (h : Worn a b) (ht : Tame a) : Tame b := fun k hk => ht k (h.subset hk)

theorem Halts.worn (h : Halts reason a e b) : Worn a b := by
  rcases h with ⟨-, h, -⟩ | ⟨h, -⟩
  · exact h
  · exact h

/-- A failure after faults may have fired is one from the start. -/
theorem Halts.after (h : Worn a b) (h' : Halts reason b e c) : Halts reason a e c := by
  rcases h' with ⟨⟨k, hk, he⟩, hworn, hlt⟩ | ⟨hworn, hreason⟩
  · exact .inl ⟨⟨k, h.subset hk, he⟩, h.trans hworn, Nat.lt_of_lt_of_le hlt h.length_le⟩
  · exact .inr ⟨h.trans hworn, hreason⟩

/-- After a failure more faults may fire, and their errors be ignored. -/
theorem Halts.worn_trans (h : Halts reason a e b) (h' : Worn b c) : Halts reason a e c := by
  rcases h with ⟨hk, hworn, hlt⟩ | ⟨hworn, hreason⟩
  · exact .inl ⟨hk, hworn.trans h', Nat.lt_of_le_of_lt h'.length_le hlt⟩
  · exact .inr ⟨hworn.trans h', hreason⟩

/-- Where no fault is armed, none fires. -/
theorem not_strikes_nil : ¬Strikes [] e b := by
  rintro ⟨-, -, hlt⟩
  simp at hlt

/-- Where no fault is armed and there is no other reason, nothing fails. -/
theorem not_halts_nil (hreason : ¬reason) : ¬Halts reason [] e b := by
  rintro (hstrikes | ⟨-, hbad⟩)
  · exact not_strikes_nil hstrikes
  · exact hreason hbad

end

/-- A call is spared by tame faults, or one of them strikes. -/
theorem meet_spares_or_strikes (call : RawCall) {faults : List Fault} (ht : Tame faults) :
    match meet call faults with
    | (none, after) => Spares faults after
    | (some effect, after) => effect ≠ .short ∧ Strikes faults (effect.error call) after := by
  -- On the armed faults: the first one that waits for the call decides, and those in front of it
  -- are left as they are.
  induction faults with
  | nil => rfl
  | cons fault rest ih =>
    have hrest : Tame rest := fun k hk => ht k (List.mem_cons_of_mem _ hk)
    have hfault : fault.effect ≠ .short := ht (kind fault) List.mem_cons_self
    by_cases hcall : fault.call = call
    · by_cases hafter : fault.after = 0
      · simp only [meet, if_pos hcall, if_pos hafter]
        refine ⟨hfault, ⟨kind fault, List.mem_cons_self, by simp [kind, hcall]⟩, ?_, ?_⟩
        · exact List.sublist_cons_self _ _
        · simp
      · -- it counts down, which is not part of its kind
        simp only [meet, if_pos hcall, if_neg hafter]
        simp [Spares, kind]
    · have ih := ih hrest
      simp only [meet, if_neg hcall]
      generalize meet call rest = met at ih
      -- the rest was spared, or one of the rest struck and there is one fault less
      obtain ⟨_ | effect, after⟩ := met
      · have ih : after.map kind = rest.map kind := ih
        simp only [Spares, List.map_cons, ih]
      · obtain ⟨hne, ⟨k, hk, he⟩, hworn, hlt⟩ := ih
        refine ⟨hne, ⟨k, List.mem_cons_of_mem _ hk, he⟩, ?_, Nat.succ_lt_succ hlt⟩
        exact List.Sublist.cons_cons _ hworn

end Fault

/-! ## Runs -/

namespace Op

variable {α β : Type} {s : Session} {full full' : Prop} {P ok : α → Session → Prop}
  {Q : β → Session → Prop} {err err' : Session → Prop}

/-! ### Single steps -/

@[simp] theorem pure_run (a : α) : (Pure.pure a : Op α) s = .ok a s := rfl

@[simp] theorem throw_run (e : Error) : (throw e : Op α) s = .error e s := rfl

@[simp] theorem get_run : (get : Op Session) s = .ok s s := rfl

@[simp] theorem set_run (s' : Session) : (set s' : Op PUnit) s = .ok () s' := rfl

@[simp] theorem modify_run (g : Session → Session) : (modify g : Op PUnit) s = .ok () (g s) := rfl

/-! ### What a run comes to

`full` is one condition for the whole run, and not a condition for each of its errors. An
operation that writes can come to be too full at several places, but the content that it would
have had is the same at all of them. -/

/-- What holds after a run that answered, and after one that failed. Unless a fault struck, a run
fails only where the content would be too `full`. -/
def Does (x : Op α) (full : Prop) (s : Session) (ok : α → Session → Prop)
    (err : Session → Prop) : Prop :=
  Fault.Tame s.faults →
    match x s with
    | .ok a s' => Fault.Spares s.faults s'.faults ∧ ok a s'
    | .error e s' => Fault.Halts full s.faults e s'.faults ∧ err s'

/-! ### Rules -/

theorem Does.mono {x : Op α} (h : x.Does full s P err) (hok : ∀ a s', P a s' → ok a s')
    (herr : ∀ s', err s' → err' s') : x.Does full s ok err' := by
  intro ht
  have h := h ht
  cases hx : x s with
  | ok a s' => rw [hx] at h; exact ⟨h.1, hok a s' h.2⟩
  | error e s' => rw [hx] at h; exact ⟨h.1, herr s' h.2⟩

theorem Does.relax {x : Op α} (h : x.Does full s ok err) (himp : full → full') :
    x.Does full' s ok err := by
  intro ht
  have h := h ht
  cases hx : x s with
  | ok a s' => rw [hx] at h; exact h
  | error e s' => rw [hx] at h; exact ⟨h.1.imp id fun ⟨hworn, hfull⟩ => ⟨hworn, himp hfull⟩, h.2⟩

/-- What two statements say of a run. -/
theorem Does.and {x : Op α} {P' : α → Session → Prop} (h : x.Does full s P err)
    (h' : x.Does full' s P' err') :
    x.Does full s (fun a s' => P a s' ∧ P' a s') (fun s' => err s' ∧ err' s') := by
  intro ht
  have h := h ht
  have h' := h' ht
  cases hx : x s with
  | ok a s' => rw [hx] at h h'; exact ⟨h.1, h.2, h'.2⟩
  | error e s' => rw [hx] at h h'; exact ⟨h.1, h.2, h'.2⟩

/-- What the faults did can be said with the rest. -/
theorem Does.spared {x : Op α} (h : x.Does full s ok err) :
    x.Does full s (fun a s' => Fault.Spares s.faults s'.faults ∧ ok a s')
      (fun s' => (∃ e, Fault.Halts full s.faults e s'.faults) ∧ err s') := by
  intro ht
  have h := h ht
  cases hx : x s with
  | ok a s' => rw [hx] at h; exact ⟨h.1, h⟩
  | error e s' => rw [hx] at h; exact ⟨h.1, ⟨e, h.1⟩, h.2⟩

/-- One computation and then another. -/
theorem Does.bind {x : Op α} {f : α → Op β} (h : x.Does full s P err)
    (hf : ∀ a s', P a s' → (f a).Does full s' Q err) : (x >>= f).Does full s Q err := by
  -- the state that the first run left is the one that the second one starts from
  intro ht
  have h := h ht
  simp only [Bind.bind, EStateM.bind]
  cases hx : x s with
  | error e s' => rw [hx] at h; exact h
  | ok a s₁ =>
    rw [hx] at h
    have hrest := hf a s₁ h.2 (h.1.worn.tame ht)
    dsimp only
    cases hy : f a s₁ with
    | ok b s' => rw [hy] at hrest; exact ⟨h.1.trans hrest.1, hrest.2⟩
    -- more faults may have been worn down before, but the error is still one of theirs
    | error e s' => rw [hy] at hrest; exact ⟨hrest.1.after h.1.worn, hrest.2⟩

theorem Does.pure {a : α} (h : ok a s) : (Pure.pure a : Op α).Does full s ok err :=
  fun _ => ⟨rfl, h⟩

theorem Does.get_bind {f : Session → Op β} (h : (f s).Does full s Q err) :
    ((get : Op Session) >>= f).Does full s Q err := h

theorem Does.set_bind {s' : Session} {f : PUnit → Op β} (hfaults : s'.faults = s.faults)
    (h : (f ()).Does full s' Q err) : ((set s' : Op PUnit) >>= f).Does full s Q err := by
  refine Does.bind (P := fun _ t => t = s') (fun _ => ⟨?_, rfl⟩) ?_
  · exact congrArg _ hfaults
  · rintro _ _ rfl
    exact h

theorem Does.modify_bind {g : Session → Session} {f : PUnit → Op β}
    (hfaults : (g s).faults = s.faults) (h : (f ()).Does full (g s) Q err) :
    ((modify g : Op PUnit) >>= f).Does full s Q err :=
  Does.set_bind hfaults h

theorem Does.set {s' : Session} {ok : PUnit → Session → Prop} (hfaults : s'.faults = s.faults)
    (h : ok () s') : (MonadStateOf.set s' : Op PUnit).Does full s ok err :=
  fun _ => ⟨congrArg _ hfaults, h⟩

theorem Does.modify {g : Session → Session} {ok : PUnit → Session → Prop}
    (hfaults : (g s).faults = s.faults) (h : ok () (g s)) :
    (modify g : Op PUnit).Does full s ok err :=
  fun _ => ⟨congrArg _ hfaults, h⟩

theorem Does.discard {x : Op α} {ok : PUnit → Session → Prop}
    (h : x.Does full s (fun _ s' => ok () s') err) : (Functor.discard x).Does full s ok err := by
  intro ht
  have h := h ht
  simp only [Functor.discard, Functor.mapConst, Function.comp, EStateM.map]
  cases hx : x s with
  | ok a s' => rw [hx] at h; exact h
  | error e s' => rw [hx] at h; exact h

theorem Does.ofExcept {x : Except Error α} {a : α} (h : x = .ok a) (hok : ok a s) :
    (Op.ofExcept x).Does full s ok err := by
  rw [h]
  exact Does.pure hok

theorem Does.ofDraw {x : Draw α} {a : α} {random : Random} (h : x s.random = .ok a random)
    (hok : ok a { s with random }) : (Op.ofDraw x).Does full s ok err := by
  intro _
  simp only [Op.ofDraw, h]
  exact ⟨rfl, hok⟩

theorem Does.when {c : Prop} [Decidable c] {x : Op PUnit} {ok : PUnit → Session → Prop}
    (h : c → x.Does full s ok err) (hskip : ¬c → ok () s) :
    (if c then x else Pure.pure ()).Does full s ok err := by
  by_cases hc : c
  · rw [if_pos hc]
    exact h hc
  · rw [if_neg hc]
    exact Does.pure (hskip hc)

/-- A run that fails at once. -/
theorem Does.refuse {x : Op α} {e : Error} (hx : x s = .error e s) (hfull : full) (herr : err s) :
    x.Does full s (fun _ _ => False) err := by
  intro _
  rw [hx]
  exact ⟨.inr ⟨Fault.Worn.refl _, hfull⟩, herr⟩

/-- What comes of an answer. -/
theorem Does.answer {x : Op α} {f : α → β} (h : x.Does full s P err)
    (hok : ∀ a s', P a s' → Q (f a) s') : Op.Does (do return f (← x)) full s Q err :=
  h.bind fun a s' ha => Does.pure (hok a s' ha)

/-- What comes of an answer, where any reason may have kept it from being given. -/
theorem Does.told {x : Op α} {f : α → β} {err' : Session → Prop} (full : Prop)
    (h : x.Does full s P err') (hok : ∀ a s', P a s' → Q (f a) s')
    (herr : ∀ s', err' s' → err s') :
    Op.Does (do return f (← x)) True s Q err :=
  ((h.answer hok).mono (fun _ _ => id) herr).relax fun _ => trivial

theorem Does.told_of_error {x : Op α} {f : α → β} {e : Error} (hx : x s = .error e s)
    (herr : err s) : Op.Does (do return f (← x)) True s Q err :=
  (Does.refuse hx trivial herr).told True (fun _ _ => False.elim) fun _ => id

theorem Does.told_of_pure {x : Op α} {f : α → β} {a : α} (hx : x = Pure.pure a) (h : Q (f a) s) :
    Op.Does (do return f (← x)) full s Q err := by
  rw [hx]
  exact Does.pure h

/-- What answers without changing anything. -/
theorem Does.of_eq {x : Op α} {a : α} (hx : x s = .ok a s) (hok : ok a s) :
    x.Does full s ok err := by
  intro _
  rw [hx]
  exact ⟨rfl, hok⟩

/-! ### Failures that are looked at

Closing after a failure and putting a backup copy back run to their end before the first error is
passed on, and they can fail themselves. Then it depends on the operation which of the errors
counts. `Raises` leaves that open: the error is the one that was there, or that of one more
fault. -/

/-- A run that fails, with the given error or because of one more fault. -/
def Raises (x : Op α) (e : Error) (full : Prop) (s : Session) (err : Session → Prop) : Prop :=
  Fault.Tame s.faults → ∃ e' s', x s = .error e' s' ∧
    ((e' = e ∧ Fault.Worn s.faults s'.faults) ∨ Fault.Halts full s.faults e' s'.faults) ∧ err s'

theorem Raises.throw {e : Error} (h : err s) : (throw e : Op α).Raises e full s err :=
  fun _ => ⟨e, s, rfl, .inl ⟨rfl, Fault.Worn.refl _⟩, h⟩

theorem Raises.modify_bind {e : Error} {g : Session → Session} {f : PUnit → Op β}
    (hfaults : (g s).faults = s.faults) (h : (f ()).Raises e full (g s) err) :
    ((modify g : Op PUnit) >>= f).Raises e full s err := by
  unfold Raises at h ⊢
  rw [hfaults] at h
  exact h

/-- Before a failure is passed on, something else is tried. When that fails too, either error may
be the one that counts. -/
theorem Raises.attempt_bind {x : Op α} {e : Error} {f : Except Error α → Op β}
    (h : x.Does full s P err') (hok : ∀ a s', P a s' → (f (.ok a)).Raises e full s' err)
    (herr : ∀ e' s', err' s' →
      (f (.error e')).Raises e full s' err ∨ (f (.error e')).Raises e' full s' err) :
    (attempt x >>= f).Raises e full s err := by
  intro ht
  have h := h ht
  have hbind (b : Except Error α) (s₁ : Session) (hx : attempt x s = .ok b s₁) :
      (attempt x >>= f) s = f b s₁ := by
    simp only [Bind.bind, EStateM.bind, hx]
  -- whatever the first run came to, the rest raises the error it started with
  have hmain {b : Except Error α} {s₁ : Session} (hworn : Fault.Worn s.faults s₁.faults)
      (hf : (f b).Raises e full s₁ err) (hx : attempt x s = .ok b s₁) :
      ∃ e' s', (attempt x >>= f) s = .error e' s' ∧
        ((e' = e ∧ Fault.Worn s.faults s'.faults) ∨ Fault.Halts full s.faults e' s'.faults) ∧
          err s' := by
    obtain ⟨e', s', hrun, hwhy, herr⟩ := hf (hworn.tame ht)
    refine ⟨e', s', (hbind b s₁ hx).trans hrun, ?_, herr⟩
    exact hwhy.imp (fun ⟨he, hw⟩ => ⟨he, hworn.trans hw⟩) fun hh => hh.after hworn
  cases hx : x s with
  | ok a s₁ =>
    rw [hx] at h
    exact hmain h.1.worn (hok a s₁ h.2) (by simp only [attempt, hx])
  | error e₁ s₁ =>
    rw [hx] at h
    have hrun₁ : attempt x s = .ok (.error e₁) s₁ := by simp only [attempt, hx]
    rcases herr e₁ s₁ h.2 with hf | hf
    · exact hmain h.1.worn hf hrun₁
    · -- the rest raises the error of the first run instead, which struck before
      obtain ⟨e', s', hrun, hwhy, hfinal⟩ := hf (h.1.worn.tame ht)
      refine ⟨e', s', (hbind _ s₁ hrun₁).trans hrun, .inr ?_, hfinal⟩
      rcases hwhy with ⟨rfl, hworn⟩ | hhalts
      · exact h.1.worn_trans hworn
      · exact hhalts.after h.1.worn

/-- A failure is looked at and passed on in the end. -/
theorem Does.attempt_bind {x : Op α} {f : Except Error α → Op β} (h : x.Does full s P err')
    (hok : ∀ a s', P a s' → (f (.ok a)).Does full s' Q err)
    (herr : ∀ e s', err' s' → (f (.error e)).Raises e full s' err) :
    (attempt x >>= f).Does full s Q err := by
  intro ht
  have h := h ht
  simp only [Bind.bind, EStateM.bind, attempt]
  cases hx : x s with
  | ok a s₁ =>
    rw [hx] at h
    have hrest := hok a s₁ h.2 (h.1.worn.tame ht)
    dsimp only
    cases hy : f (.ok a) s₁ with
    | ok b s' => rw [hy] at hrest; exact ⟨h.1.trans hrest.1, hrest.2⟩
    | error e s' => rw [hy] at hrest; exact ⟨hrest.1.after h.1.worn, hrest.2⟩
  | error e s₁ =>
    rw [hx] at h
    obtain ⟨e', s', hrun, hwhy, hfinal⟩ := herr e s₁ h.2 (h.1.worn.tame ht)
    dsimp only
    rw [hrun]
    refine ⟨?_, hfinal⟩
    -- the error was passed on, or replaced by that of a fault which struck on the way
    rcases hwhy with ⟨rfl, hworn⟩ | hhalts
    · exact h.1.worn_trans hworn
    · exact hhalts.after h.1.worn

/-! ### Reading off a run

Statements about what a run does are put together with the rules above. What follows goes the
other way: a run is given, answered or not, and taken apart. -/

/-- The session after a run, answered or not. -/
def after (x : Op α) (s : Session) : Session :=
  match x s with
  | .ok _ s' | .error _ s' => s'

theorem after_of_ok {x : Op α} {a : α} {s' : Session} (h : x s = .ok a s') : x.after s = s' := by
  simp only [after, h]

theorem after_of_error {x : Op α} {e : Error} {s' : Session} (h : x s = .error e s') :
    x.after s = s' := by
  simp only [after, h]

/-- Does the run answer? -/
def succeeds (x : Op α) (s : Session) : Bool :=
  match x s with
  | .ok _ _ => true
  | .error _ _ => false

theorem succeeds_of_ok {x : Op α} {a : α} {s' : Session} (h : x s = .ok a s') :
    x.succeeds s = true := by
  simp only [succeeds, h]

theorem succeeds_of_error {x : Op α} {e : Error} {s' : Session} (h : x s = .error e s') :
    x.succeeds s = false := by
  simp only [succeeds, h]

theorem ok_of_succeeds {x : Op α} (h : x.succeeds s = true) : ∃ a, x s = .ok a (x.after s) := by
  unfold succeeds at h
  cases hx : x s with
  | ok a s' => exact ⟨a, by rw [after_of_ok hx]⟩
  | error e s' => simp [hx] at h

/-- What the run answers, if it does. -/
def answer? (x : Op α) (s : Session) : Option α :=
  match x s with
  | .ok a _ => some a
  | .error _ _ => none

theorem ok_of_answer? {x : Op α} {a : α} (h : x.answer? s = some a) : x s = .ok a (x.after s) := by
  unfold answer? at h
  cases hx : x s with
  | ok b s' =>
    rw [hx, Option.some.injEq] at h
    rw [after_of_ok hx, h]
  | error e s' =>
    rw [hx] at h
    exact absurd h (by simp)

/-- The error of the run, if it fails. -/
def error? (x : Op α) (s : Session) : Option Error :=
  match x s with
  | .ok _ _ => none
  | .error e _ => some e

theorem error_of_error? {x : Op α} {e : Error} (h : x.error? s = some e) :
    x s = .error e (x.after s) := by
  unfold error? at h
  cases hx : x s with
  | ok a s' =>
    rw [hx] at h
    exact absurd h (by simp)
  | error e' s' =>
    rw [hx, Option.some.injEq] at h
    rw [after_of_error hx, h]

theorem error_of_not_succeeds {x : Op α} (h : x.succeeds s = false) :
    ∃ e, x s = .error e (x.after s) := by
  unfold succeeds at h
  cases hx : x s with
  | ok a s' => simp [hx] at h
  | error e s' => exact ⟨e, by rw [after_of_error hx]⟩

/-- What comes after an answer comes after both. -/
theorem after_bind {x : Op α} {f : α → Op β} {a : α} {s' : Session} (h : x s = .ok a s') :
    (x >>= f).after s = (f a).after s' := by
  simp only [after, Bind.bind, EStateM.bind, h]

/-- A run that answered, taken apart. -/
theorem ok_of_bind {x : Op α} {f : α → Op β} {b : β} {s' : Session}
    (h : (x >>= f) s = .ok b s') : ∃ a t, x s = .ok a t ∧ f a t = .ok b s' := by
  simp only [Bind.bind, EStateM.bind] at h
  cases hx : x s with
  | ok a t => exact ⟨a, t, rfl, by rwa [hx] at h⟩
  | error e t => rw [hx] at h; exact absurd h (by simp)

/-- A run that answered got past a check in front of it. -/
theorem ok_of_unless {c : Prop} [Decidable c] {e : Error} {f : α → Op β} {y : Op β} {b : β}
    {s' : Session} (h : (if c then MonadExcept.throw e >>= f else y) s = .ok b s') :
    ¬c ∧ y s = .ok b s' := by
  by_cases hc : c
  · rw [if_pos hc] at h
    obtain ⟨_, _, ⟨⟩, -⟩ := ok_of_bind h
  · exact ⟨hc, by rwa [if_neg hc] at h⟩

/-- What holds after a run, whatever comes of it. -/
theorem Does.after {x : Op α} (h : x.Does full s (fun _ s' => err s') err)
    (ht : Fault.Tame s.faults) : Fault.Worn s.faults (x.after s).faults ∧ err (x.after s) := by
  have h := h ht
  cases hx : x s with
  | ok a s' =>
    rw [hx] at h
    rw [after_of_ok hx]
    exact ⟨h.1.worn, h.2⟩
  | error e s' =>
    rw [hx] at h
    rw [after_of_error hx]
    exact ⟨h.1.worn, h.2⟩

/-- A run that answered was spared. -/
theorem Does.of_ok {x : Op α} {a : α} {s' : Session} (h : x.Does full s ok err)
    (ht : Fault.Tame s.faults) (hx : x s = .ok a s') :
    Fault.Spares s.faults s'.faults ∧ ok a s' := by
  have h := h ht
  rwa [hx] at h

/-- A run that failed has a reason. -/
theorem Does.of_error {x : Op α} {e : Error} {s' : Session} (h : x.Does full s ok err)
    (ht : Fault.Tame s.faults) (hx : x s = .error e s') :
    Fault.Halts full s.faults e s'.faults ∧ err s' := by
  have h := h ht
  rwa [hx] at h

/-- **A run that lost no fault answers,** unless the content got too full: a fault that strikes is
gone. -/
theorem Does.answers_of_unstruck {x : Op α} (h : x.Does full s ok err) (ht : Fault.Tame s.faults)
    (hroom : ¬full) (hsame : s.faults.length ≤ (x.after s).faults.length) :
    ∃ a s', x s = .ok a s' ∧ ok a s' := by
  cases hx : x s with
  | ok a s' => exact ⟨a, s', rfl, (h.of_ok ht hx).2⟩
  | error e s' =>
    rw [after_of_error hx] at hsame
    rcases (h.of_error ht hx).1 with ⟨-, -, hlt⟩ | ⟨-, hfull⟩
    · exact absurd hsame (Nat.not_le.mpr hlt)
    · exact absurd hfull hroom

/-- **Without faults, and as long as the content does not get too full, there is an answer.** -/
theorem Does.answers {x : Op α} (h : x.Does full s ok err) (hfaults : s.faults = [])
    (hroom : ¬full) : ∃ a s', x s = .ok a s' ∧ s'.faults = [] ∧ ok a s' := by
  have h := h (Fault.tame_of_nil hfaults)
  cases hx : x s with
  | ok a s' =>
    rw [hx] at h
    exact ⟨a, s', rfl, Fault.Spares.nil (hfaults ▸ h.1), h.2⟩
  | error e s' =>
    rw [hx] at h
    exact absurd (hfaults ▸ h.1) (Fault.not_halts_nil hroom)

end Op

/-! ## Runs with their errors

The rules are those of `Does` without faults and without a reason. They are needed where a fault
may make a call fall short, and where an error has to be told apart from others; a statement
about what a failed call leaves behind is one of `Does`. -/

namespace Op

variable {α β : Type} {s : Session} {P ok ok' : α → Session → Prop} {Q : β → Session → Prop}
  {err err' : Error → Session → Prop}

/-- What holds after a run that answered, and after one that failed with an error. -/
def Ends (x : Op α) (s : Session) (ok : α → Session → Prop) (err : Error → Session → Prop) : Prop :=
  match x s with
  | .ok a s' => ok a s'
  | .error e s' => err e s'

theorem Ends.mono {x : Op α} (h : x.Ends s ok err) (hok : ∀ a s', ok a s' → ok' a s')
    (herr : ∀ e s', err e s' → err' e s') : x.Ends s ok' err' := by
  unfold Ends at h ⊢
  cases hx : x s with
  | ok a s' => rw [hx] at h; exact hok a s' h
  | error e s' => rw [hx] at h; exact herr e s' h

theorem Ends.and {x : Op α} (h : x.Ends s ok err) (h' : x.Ends s ok' err') :
    x.Ends s (fun a s' => ok a s' ∧ ok' a s') fun e s' => err e s' ∧ err' e s' := by
  unfold Ends at h h' ⊢
  cases hx : x s with
  | ok a s' => rw [hx] at h h'; exact ⟨h, h'⟩
  | error e s' => rw [hx] at h h'; exact ⟨h, h'⟩

theorem Ends.bind {x : Op α} {f : α → Op β} (h : x.Ends s P err)
    (hf : ∀ a s', P a s' → (f a).Ends s' Q err) : (x >>= f).Ends s Q err := by
  unfold Ends at h ⊢
  simp only [Bind.bind, EStateM.bind]
  cases hx : x s with
  | ok a s' => rw [hx] at h; exact hf a s' h
  | error e s' => rw [hx] at h; exact h

/-- Every run comes to something. -/
theorem Ends.any (x : Op α) (s : Session) : x.Ends s (fun _ _ => True) fun _ _ => True := by
  unfold Ends
  cases x s <;> trivial

/-- What a run came to is what it comes to. -/
theorem Ends.self (x : Op α) (s : Session) :
    x.Ends s (fun a s' => x s = .ok a s') fun e s' => x s = .error e s' := by
  unfold Ends
  cases hx : x s with
  | ok a s' => exact rfl
  | error e s' => exact rfl

theorem Ends.get_bind {f : Session → Op β} (h : (f s).Ends s Q err) :
    ((get : Op Session) >>= f).Ends s Q err := h

theorem Ends.modify_bind {g : Session → Session} {f : PUnit → Op β}
    (h : (f ()).Ends (g s) Q err) : ((modify g : Op PUnit) >>= f).Ends s Q err := h

/-- An answer that is already there, or an error that ends all. -/
theorem Ends.ofExcept {x : Except Error α} (hok : ∀ a, x = .ok a → ok a s)
    (herr : ∀ e, x = .error e → err e s) : (Op.ofExcept x).Ends s ok err := by
  cases x with
  | ok a => exact hok a rfl
  | error e => exact herr e rfl

/-- Drawing changes the source of randomness and nothing else. -/
theorem Ends.ofDraw {x : Draw α}
    (hok : ∀ a random, x s.random = .ok a random → ok a { s with random })
    (herr : ∀ e random, x s.random = .error e random → err e { s with random }) :
    (Op.ofDraw x).Ends s ok err := by
  unfold Ends Op.ofDraw
  cases hx : x s.random with
  | ok a random => exact hok a random hx
  | error e random => exact herr e random hx

theorem Ends.ite {c : Prop} [Decidable c] {x y : Op α} (hx : c → x.Ends s ok err)
    (hy : ¬c → y.Ends s ok err) : (if c then x else y).Ends s ok err := by
  by_cases hc : c
  · rw [if_pos hc]
    exact hx hc
  · rw [if_neg hc]
    exact hy hc

/-- A check in front of the rest. -/
theorem Ends.unless {c : Prop} [Decidable c] {e : Error} {f : α → Op β} {y : Op β}
    (herr : c → err e s) (hy : ¬c → y.Ends s Q err) :
    (if c then MonadExcept.throw e >>= f else y).Ends s Q err :=
  Ends.ite herr hy

/-- A failure that is looked at. -/
theorem Ends.attempt {x : Op α} (h : x.Ends s P err') :
    (Op.attempt x).Ends s
      (fun r s' => (∃ a, r = .ok a ∧ P a s') ∨ (∃ e, r = .error e ∧ err' e s')) err := by
  unfold Ends at h ⊢
  unfold Op.attempt
  cases hx : x s with
  | ok a s' => rw [hx] at h; exact .inl ⟨a, rfl, h⟩
  | error e s' => rw [hx] at h; exact .inr ⟨e, rfl, h⟩

/-- Something else is done whatever comes of the run. -/
theorem Ends.attempt_bind {x : Op α} {f : Except Error α → Op β} {I : Session → Prop}
    (h : x.Ends s (fun _ s' => I s') fun _ s' => I s') (hf : ∀ r s', I s' → (f r).Ends s' Q err) :
    (Op.attempt x >>= f).Ends s Q err := by
  refine Ends.bind h.attempt ?_
  rintro r s' (⟨a, rfl, hs'⟩ | ⟨e, rfl, hs'⟩)
  · exact hf _ s' hs'
  · exact hf _ s' hs'

theorem Ends.discard {x : Op α} {ok : PUnit → Session → Prop}
    (h : x.Ends s (fun _ s' => ok () s') err) : (Functor.discard x).Ends s ok err := by
  unfold Ends at h ⊢
  simp only [Functor.discard, Functor.mapConst, Function.comp, EStateM.map]
  cases hx : x s with
  | ok a s' => rw [hx] at h; exact h
  | error e s' => rw [hx] at h; exact h

theorem Ends.of_ok {x : Op α} {a : α} {s' : Session} (h : x.Ends s ok err) (hx : x s = .ok a s') :
    ok a s' := by
  unfold Ends at h
  rwa [hx] at h

theorem Ends.of_error {x : Op α} {e : Error} {s' : Session} (h : x.Ends s ok err)
    (hx : x s = .error e s') : err e s' := by
  unfold Ends at h
  rwa [hx] at h

/-- What cannot fail answers. -/
theorem Ends.answers {x : Op α} (h : x.Ends s ok fun _ _ => False) :
    ∃ a s', x s = .ok a s' ∧ ok a s' := by
  unfold Ends at h
  cases hx : x s with
  | ok a s' => exact ⟨a, s', rfl, by rwa [hx] at h⟩
  | error e s' => rw [hx] at h; exact h.elim

/-- What answers under one condition. -/
theorem Ends.ok_iff {x : Op Unit} {P : Prop} (h : x.Ends s (fun _ _ => P) fun _ _ => ¬P) :
    (∃ s', x s = .ok () s') ↔ P := by
  refine ⟨fun ⟨_, hx⟩ => h.of_ok hx, fun hP => ?_⟩
  cases hx : x s with
  | ok _ s' => exact ⟨s', rfl⟩
  | error e s' => exact absurd hP (h.of_error hx)

/-- What holds after a run, whatever comes of it. -/
theorem Ends.after {x : Op α} {P : Session → Prop}
    (h : x.Ends s (fun _ s' => P s') fun _ s' => P s') : P (x.after s) := by
  unfold Ends at h
  cases hx : x s with
  | ok a s' =>
    rw [hx] at h
    rwa [after_of_ok hx]
  | error e s' =>
    rw [hx] at h
    rwa [after_of_error hx]

end Op

end Vault
