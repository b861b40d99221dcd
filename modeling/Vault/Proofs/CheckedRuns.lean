import Vault.Proofs.CheckedReading
import Vault.Proofs.Raw

/-!
# `Vault/Proofs/CheckedRuns.lean` — two computations step by step

`CheckedOp.Does` says of a computation and its checked form that they come to the same, and at once
what they come to: **the checked form answers what the plain one answers, fails where it fails with
the same error, and is never trapped.** A derivation goes through both computations together. Where
the checked form has a step of its own, the derivation has to show that it has a result; where the
plain one looks at the session once more, it looks alone.

Nothing is assumed about faults here: they may be of any kind and in any number. Of the calls of a
raw file it is said what they do if there are none, and that they do nothing worse than fail or fall
short if there are some.
-/

set_option autoImplicit false

namespace Vault

/-! ## Computations and their checked forms -/

namespace CheckedOp

variable {α β γ : Type} {s : Session} {P ok ok' : α → Session → Prop} {Q : β → Session → Prop}
  {err err' : Error → Session → Prop}

/-- The checked form of a computation comes to the same as the computation, and this is what they
come to. -/
def Does (g : CheckedOp α) (x : Op α) (s : Session) (ok : α → Session → Prop)
    (err : Error → Session → Prop) : Prop :=
  match x s with
  | .ok a s' => g s = .ok a s' ∧ ok a s'
  | .error e s' => g s = .error (.error e) s' ∧ err e s'

theorem Does.ends {g : CheckedOp α} {x : Op α} (h : g.Does x s ok err) : x.Ends s ok err := by
  unfold Does at h
  unfold Op.Ends
  cases hx : x s with
  | ok a s' => rw [hx] at h; exact h.2
  | error e s' => rw [hx] at h; exact h.2

/-- **The checked form is never trapped.** -/
theorem Does.same {g : CheckedOp α} {x : Op α} (h : g.Does x s ok err) : g s = ofOp x s := by
  unfold Does at h
  unfold ofOp
  cases hx : x s with
  | ok a s' => rw [hx] at h; exact h.1
  | error e s' => rw [hx] at h; exact h.1

theorem Does.mono {g : CheckedOp α} {x : Op α} (h : g.Does x s ok err)
    (hok : ∀ a s', ok a s' → ok' a s') (herr : ∀ e s', err e s' → err' e s') :
    g.Does x s ok' err' := by
  unfold Does at h ⊢
  cases hx : x s with
  | ok a s' => rw [hx] at h; exact ⟨h.1, hok a s' h.2⟩
  | error e s' => rw [hx] at h; exact ⟨h.1, herr e s' h.2⟩

/-! ### Rules

Each rule has the step that both computations take, or the one that only one of them takes. The
postconditions are those of the plain computation, so a rule can be used for it alone
(`Does.ends`). -/

/-- One computation and then another. -/
theorem Does.bind {g : CheckedOp α} {x : Op α} {k : α → CheckedOp β} {f : α → Op β}
    (h : g.Does x s P err) (hf : ∀ a s', P a s' → (k a).Does (f a) s' Q err) :
    (g >>= k).Does (x >>= f) s Q err := by
  unfold Does at h ⊢
  simp only [Bind.bind, EStateM.bind]
  cases hx : x s with
  | ok a s' =>
    rw [hx] at h
    have hrest := hf a s' h.2
    unfold Does at hrest
    simp only [h.1]
    exact hrest
  | error e s' =>
    rw [hx] at h
    simp only [h.1]
    exact ⟨trivial, h.2⟩

/-- A step of the checked form alone has a result. -/
theorem Does.step {y : CheckedOp γ} {k : γ → CheckedOp α} {x : Op α} {c : γ} (hy : y s = .ok c s)
    (h : (k c).Does x s ok err) : (y >>= k).Does x s ok err := by
  unfold Does at h ⊢
  simp only [Bind.bind, EStateM.bind, hy]
  exact h

/-- A checked number is there. -/
theorem Does.check {o : Option γ} {k : γ → CheckedOp α} {x : Op α} {c : γ} (ho : o = some c)
    (h : (k c).Does x s ok err) : (ofOption o >>= k).Does x s ok err :=
  Does.step (by rw [ho]; rfl) h

theorem Does.pure {a : α} (h : ok a s) :
    (Pure.pure a : CheckedOp α).Does (Pure.pure a) s ok err := ⟨rfl, h⟩

theorem Does.throw {e : Error} (h : err e s) :
    (throw (.error e) : CheckedOp α).Does (throw e) s ok err := ⟨rfl, h⟩

/-- A failure in front of the rest. -/
theorem Does.throw_bind {e : Error} {k : α → CheckedOp β} {f : α → Op β} (h : err e s) :
    ((MonadExcept.throw (Stop.error e) : CheckedOp α) >>= k).Does (MonadExcept.throw e >>= f) s Q
      err := ⟨rfl, h⟩

theorem Does.get_bind {k : Session → CheckedOp β} {f : Session → Op β}
    (h : (k s).Does (f s) s Q err) :
    ((get : CheckedOp Session) >>= k).Does ((get : Op Session) >>= f) s Q err := h

/-- A step of the plain computation alone. -/
theorem Does.skip {y : Op γ} {g : CheckedOp β} {f : γ → Op β} {c : γ} (hy : y s = .ok c s)
    (h : g.Does (f c) s Q err) : g.Does (y >>= f) s Q err := by
  unfold Does at h ⊢
  simp only [Bind.bind, EStateM.bind, hy]
  exact h

/-- The plain computation looks at the session, the checked one does not. -/
theorem Does.look {g : CheckedOp β} {f : Session → Op β} (h : g.Does (f s) s Q err) :
    g.Does ((get : Op Session) >>= f) s Q err := h

theorem Does.set_bind {s' : Session} {k : PUnit → CheckedOp β} {f : PUnit → Op β}
    (h : (k ()).Does (f ()) s' Q err) :
    ((set s' : CheckedOp PUnit) >>= k).Does ((set s' : Op PUnit) >>= f) s Q err := h

theorem Does.modify_bind {m : Session → Session} {k : PUnit → CheckedOp β} {f : PUnit → Op β}
    (h : (k ()).Does (f ()) (m s) Q err) :
    ((modify m : CheckedOp PUnit) >>= k).Does ((modify m : Op PUnit) >>= f) s Q err := h

/-- The checked computation has worked out what the plain one changes. -/
theorem Does.set_modify_bind {m : Session → Session} {s' : Session} {k : PUnit → CheckedOp β}
    {f : PUnit → Op β} (hs : s' = m s) (h : (k ()).Does (f ()) s' Q err) :
    ((set s' : CheckedOp PUnit) >>= k).Does ((modify m : Op PUnit) >>= f) s Q err := by
  subst hs
  exact h

theorem Does.set {s' : Session} {ok : PUnit → Session → Prop} (h : ok () s') :
    (MonadStateOf.set s' : CheckedOp PUnit).Does (MonadStateOf.set s' : Op PUnit) s ok err :=
  ⟨rfl, h⟩

theorem Does.modify {m : Session → Session} {ok : PUnit → Session → Prop} (h : ok () (m s)) :
    (modify m : CheckedOp PUnit).Does (modify m : Op PUnit) s ok err := ⟨rfl, h⟩

theorem Does.ite {c : Prop} [Decidable c] {g g' : CheckedOp α} {x x' : Op α}
    (h : c → g.Does x s ok err) (h' : ¬c → g'.Does x' s ok err) :
    (if c then g else g').Does (if c then x else x') s ok err := by
  by_cases hc : c
  · rw [if_pos hc, if_pos hc]; exact h hc
  · rw [if_neg hc, if_neg hc]; exact h' hc

/-- A check in front of the rest. -/
theorem Does.unless {c : Prop} [Decidable c] {e : Error} {k : α → CheckedOp β} {f : α → Op β}
    {g : CheckedOp β} {x : Op β} (herr : c → err e s) (h : ¬c → g.Does x s Q err) :
    (if c then (MonadExcept.throw (Stop.error e) : CheckedOp α) >>= k else g).Does
      (if c then MonadExcept.throw e >>= f else x) s Q err :=
  Does.ite (fun hc => Does.throw_bind (herr hc)) h

/-- There is nothing to be checked. -/
theorem Does.ofOp {x : Op α} (h : x.Ends s ok err) : (CheckedOp.ofOp x).Does x s ok err := by
  unfold Op.Ends at h
  unfold Does CheckedOp.ofOp
  cases hx : x s with
  | ok a s' => rw [hx] at h; exact ⟨rfl, h⟩
  | error e s' => rw [hx] at h; exact ⟨rfl, h⟩

/-- A checked result is that of the plain computation. -/
theorem Does.ofResult {r : Except Error α} {o : Option (Except Error α)} (ho : o = some r)
    (hok : ∀ a, r = .ok a → ok a s) (herr : ∀ e, r = .error e → err e s) :
    (CheckedOp.ofResult o).Does (Op.ofExcept r) s ok err := by
  subst ho
  cases r with
  | ok a => exact ⟨rfl, hok a rfl⟩
  | error e => exact ⟨rfl, herr e rfl⟩

/-- A failure that is looked at. -/
theorem Does.attempt {g : CheckedOp α} {x : Op α} (h : g.Does x s P err') :
    (CheckedOp.attempt g).Does (Op.attempt x) s
      (fun r s' => (∃ a, r = .ok a ∧ P a s') ∨ (∃ e, r = .error e ∧ err' e s')) err := by
  unfold Does at h ⊢
  unfold CheckedOp.attempt Op.attempt
  cases hx : x s with
  | ok a s' =>
    rw [hx] at h
    simp only [h.1]
    exact ⟨trivial, .inl ⟨a, rfl, h.2⟩⟩
  | error e s' =>
    rw [hx] at h
    simp only [h.1]
    exact ⟨trivial, .inr ⟨e, rfl, h.2⟩⟩

theorem Does.discard {g : CheckedOp α} {x : Op α} {ok : PUnit → Session → Prop}
    (h : g.Does x s (fun _ s' => ok () s') err) :
    (Functor.discard g).Does (Functor.discard x) s ok err := by
  unfold Does at h ⊢
  simp only [Functor.discard, Functor.mapConst, Function.comp, EStateM.map]
  cases hx : x s with
  | ok a s' =>
    rw [hx] at h
    simp only [h.1]
    exact ⟨trivial, h.2⟩
  | error e s' =>
    rw [hx] at h
    simp only [h.1]
    exact ⟨trivial, h.2⟩

/-- What comes of an answer. -/
theorem Does.answer {g : CheckedOp α} {x : Op α} {f : α → β} (h : g.Does x s P err)
    (hok : ∀ a s', P a s' → Q (f a) s') :
    CheckedOp.Does (do return f (← g)) (do return f (← x)) s Q err :=
  h.bind fun a s' ha => Does.pure (hok a s' ha)

end CheckedOp

/-! ## A raw file with any faults

The faults of a run are only looked at through the question whether there are any. A call may add
to the trace, move the handle and use up a fault; it must not arm one (`PassesOn`). -/

namespace Session

/-- Where no faults are armed, none get armed. -/
def Calms (s : Session) (x : Surroundings) : Prop := s.faults = [] → x.faults = []

/-- Nothing changed that matters, and no faults got armed. -/
def PassesOn (s s' : Session) : Prop := ∃ x, s.Calms x ∧ s' = s.beside x

theorem PassesOn.refl (s : Session) : s.PassesOn s := by
  obtain ⟨x, hx⟩ := PassesBy.refl s
  refine ⟨x, fun h => ?_, hx⟩
  rw [hx] at h
  exact h

theorem PassesOn.trans {s s₁ s₂ : Session} (h : s.PassesOn s₁) (h' : s₁.PassesOn s₂) :
    s.PassesOn s₂ := by
  obtain ⟨x, hx, rfl⟩ := h
  obtain ⟨y, hy, rfl⟩ := h'
  exact ⟨y, fun hs => hy (hx hs), s.beside_beside x y⟩

end Session

namespace Raw

open Session

variable {s : Session} {h : Handle}

theorem note_ends (hh : s.handle = some h) (event : Event) (err : Error → Session → Prop) :
    (note event).Ends s
      (fun _ s' => ∃ x, s.Calms x ∧ x.position = h.position ∧ s' = s.beside x) err :=
  ⟨⟨s.faults, event :: s.trace, s.random, h.position⟩, id, rfl,
    beside_of_handle hh s.faults (event :: s.trace) s.random⟩

/-- A call meets the faults, and if there are none it goes through whole. -/
theorem meetFault_wears' (s : Session) (call : RawCall) :
    (meetFault call).Ends s
      (fun short s' => (s.faults = [] → short = false ∧ s'.faults = []) ∧
        ∃ faults, s' = { s with faults })
      (fun _ s' => s.faults ≠ [] ∧ ∃ faults, s' = { s with faults }) := by
  unfold meetFault
  refine Op.Ends.bind (P := fun a t => a = s ∧ t = s) ⟨rfl, rfl⟩ ?_
  intro a t hat
  rw [hat.1, hat.2]
  cases hm : Fault.meet call s.faults with
  | mk effect after =>
    have hnone (hs : s.faults = []) : effect = none ∧ after = [] := by
      rw [hs] at hm
      exact Prod.mk.inj hm.symm
    simp only
    refine Op.Ends.bind (P := fun _ s' => s' = { s with faults := after }) rfl ?_
    rintro _ _ rfl
    have hsome {e : FaultEffect} (he : effect = some e) : s.faults ≠ [] := fun hs => by
      -- the faults are taken off before it is known what they do
      rw [(hnone hs).1] at he
      exact absurd he (by simp)
    cases effect with
    | none => exact ⟨fun hs => ⟨rfl, (hnone hs).2⟩, after, rfl⟩
    | some effect =>
      cases effect with
      | fail => exact ⟨hsome rfl, after, rfl⟩
      | fileError => exact ⟨hsome rfl, after, rfl⟩
      | short => exact ⟨fun hs => absurd hs (hsome rfl), after, rfl⟩

theorem meetFault_ends (hh : s.handle = some h) (call : RawCall) :
    (meetFault call).Ends s
      (fun short s' => (s.faults = [] → short = false) ∧
        ∃ x, s.Calms x ∧ x.position = h.position ∧ s' = s.beside x)
      (fun _ s' => s.faults ≠ [] ∧ s.PassesOn s') := by
  have hbeside (faults : List Fault) : ({ s with faults } : Session)
      = s.beside ⟨faults, s.trace, s.random, h.position⟩ :=
    beside_of_handle hh faults s.trace s.random
  refine (meetFault_wears' s call).mono ?_ ?_
  · rintro short - ⟨hcalm, faults, rfl⟩
    exact ⟨fun hs => (hcalm hs).1, _, fun hs => (hcalm hs).2, rfl, hbeside faults⟩
  · rintro e - ⟨hfaults, faults, rfl⟩
    exact ⟨hfaults, _, fun hs => absurd hs hfaults, hbeside faults⟩

theorem handle_ends (hh : s.handle = some h) (err : Error → Session → Prop) :
    handle.Ends s (fun h' s' => h' = h ∧ s' = s) err := by
  unfold handle
  refine Op.Ends.bind (P := fun a s' => a = s ∧ s' = s) ⟨rfl, rfl⟩ ?_
  rintro _ _ ⟨rfl, rfl⟩
  simp only [hh]
  exact ⟨rfl, rfl⟩

theorem met_ends (hh : s.handle = some h) (call : RawCall) :
    (discard (meetFault call)).Ends s
      (fun _ s' => ∃ x, s.Calms x ∧ x.position = h.position ∧ s' = s.beside x)
      (fun _ s' => s.faults ≠ [] ∧ s.PassesOn s') :=
  Op.Ends.discard ((meetFault_ends hh call).mono (fun _ _ hmet => hmet.2) fun _ _ => id)

theorem seek_ends (hh : s.handle = some h) (position : Nat) :
    (seek position).Ends s
      (fun _ s' => ∃ x, s.Calms x ∧ x.position = position ∧ s' = s.beside x)
      (fun _ s' => s.faults ≠ [] ∧ s.PassesOn s') := by
  unfold seek
  refine Op.Ends.bind (met_ends hh .seek) ?_
  rintro - - ⟨x, hcalm, -, rfl⟩
  refine Op.Ends.bind (handle_ends (handle_beside hh x) _) ?_
  rintro _ - ⟨rfl, rfl⟩
  exact ⟨⟨x.faults, x.trace, x.random, position⟩, hcalm, rfl, by simp [beside, hh]⟩

/-- What is read is what is there, or less if a fault struck. -/
theorem read_ends (hh : s.handle = some h) (n : Nat) :
    (read n).Ends s
      (fun data s' => (s.faults = [] ∨ data.length = n →
          data = (s.disk.contents h.file).slice h.position n) ∧
        ∃ x, s.Calms x ∧ x.position = h.position + data.length ∧ s' = s.beside x)
      (fun _ s' => s.faults ≠ [] ∧ s.PassesOn s') := by
  unfold read
  refine Op.Ends.bind (meetFault_ends hh .read) ?_
  rintro short - ⟨hshort, x, hcalm, hx, rfl⟩
  refine Op.Ends.bind (handle_ends (handle_beside hh x) _) ?_
  rintro _ - ⟨rfl, rfl⟩
  refine Op.Ends.bind (P := fun a t => a = s.beside x ∧ t = s.beside x) ⟨rfl, rfl⟩ ?_
  rintro _ _ ⟨rfl, rfl⟩
  simp only [disk_beside, hx]
  generalize hdata : (s.disk.contents h.file).slice h.position (if short = true then n - 1 else n)
    = data
  refine ⟨?_, ⟨x.faults, .read h.position data.length :: x.trace, x.random,
    h.position + data.length⟩, hcalm, rfl, by simp [beside, hh]⟩
  cases short with
  | false =>
    intro _
    rw [← hdata]
    rfl
  -- a short read of all that was asked for was one of nothing
  | true =>
    rintro (hs | hlen)
    · exact absurd (hshort hs) (by simp)
    · have hle : data.length ≤ n - 1 := by
        rw [← hdata, Bytes.length_slice]
        exact Nat.min_le_left _ _
      obtain rfl : n = 0 := by omega
      rw [List.eq_nil_of_length_eq_zero hlen]
      simp [Bytes.slice]

theorem size_ends (hh : s.handle = some h) :
    size.Ends s (fun n s' => n = (s.disk.contents h.file).length ∧ s.PassesOn s')
      (fun _ s' => s.faults ≠ [] ∧ s.PassesOn s') := by
  unfold size
  refine Op.Ends.bind (met_ends hh .size) ?_
  rintro - - ⟨x, hcalm, -, rfl⟩
  refine Op.Ends.bind (handle_ends (handle_beside hh x) _) ?_
  rintro _ - ⟨rfl, rfl⟩
  exact ⟨rfl, x, hcalm, rfl⟩

/-- What is written is all of the data, or one byte less if a fault struck. -/
theorem write_ends (hh : s.handle = some h) (hw : h.writable = true)
    (hlong : h.position ≤ (s.disk.contents h.file).length) (data : Bytes) :
    (write data).Ends s
      (fun n s' => ∃ written, n = written.length ∧
        (written = data ∨ s.faults ≠ [] ∧ written = data.dropLast) ∧
        (s.withContents h.file ((s.disk.contents h.file).overlay h.position written)).PassesOn s')
      (fun _ s' => s.faults ≠ [] ∧ s.PassesOn s') := by
  unfold write
  refine Op.Ends.bind (meetFault_ends hh .write) ?_
  rintro short - ⟨hshort, x, hcalm, hx, rfl⟩
  refine Op.Ends.bind (handle_ends (handle_beside hh x) _) ?_
  rintro _ - ⟨rfl, rfl⟩
  obtain ⟨written, hwritten⟩ : ∃ written, written = if short = true then data.dropLast else data :=
    ⟨_, rfl⟩
  have hwhich : written = data ∨ s.faults ≠ [] ∧ written = data.dropLast := by
    cases short with
    | false => exact .inl hwritten
    | true => exact .inr ⟨fun hs => absurd (hshort hs) (by simp), hwritten⟩
  simp only [← hwritten, hx]
  obtain ⟨y, hy⟩ : ∃ y : Surroundings, y = ⟨x.faults,
    .wrote h.position written.length :: x.trace, x.random, h.position + written.length⟩ := ⟨_, rfl⟩
  -- a write of nothing leaves the file alone, even behind its end
  by_cases hnone : written = []
  · simp only [hnone, ne_eq, not_true_eq_false, if_false]
    refine Op.Ends.modify_bind (Op.Ends.modify_bind ⟨written, by rw [hnone], hwhich, ?_⟩)
    rw [hnone, Bytes.overlay_nil hlong, withContents_self]
    exact ⟨y, hy ▸ hcalm, by simp [hy, hnone, beside, hh]⟩
  · simp only [ne_eq, hnone, not_false_eq_true, if_true, hw, Bool.not_true, Bool.false_eq_true,
      if_false]
    refine Op.Ends.modify_bind (Op.Ends.modify_bind (Op.Ends.modify_bind
      ⟨written, rfl, hwhich, y, hy ▸ hcalm, ?_⟩))
    simp [hy, beside, withContents, hh, hw]

theorem truncate_ends (hh : s.handle = some h) (hw : h.writable = true) (size : Nat)
    (durable : Bool) :
    (truncate size durable).Ends s
      (fun _ s' => (s.withContents h.file ((s.disk.contents h.file).resize size)).PassesOn s')
      (fun _ s' => s.faults ≠ [] ∧ s.PassesOn s') := by
  unfold truncate
  refine Op.Ends.bind (note_ends hh _ _) ?_
  rintro - - ⟨x, hcalm, -, rfl⟩
  refine Op.Ends.bind ((met_ends (handle_beside hh x) .truncate).mono (fun _ _ => id) ?_) ?_
  · rintro e s' ⟨hstruck, hpass⟩
    exact ⟨fun hs => hstruck (hcalm hs), PassesOn.trans ⟨x, hcalm, rfl⟩ hpass⟩
  rintro - - ⟨y, hcalm', -, rfl⟩
  rw [beside_beside]
  refine Op.Ends.bind (handle_ends (handle_beside hh y) _) ?_
  rintro _ - ⟨rfl, rfl⟩
  simp only [hw, Bool.not_true, Bool.false_eq_true, if_false]
  refine ⟨y, fun hs => hcalm' (hcalm hs), ?_⟩
  simp [beside, withContents, hh]

theorem flush_ends (hh : s.handle = some h) (deep : Bool) :
    (flush deep).Ends s (fun _ s' => s.PassesOn s')
      (fun _ s' => s.faults ≠ [] ∧ s.PassesOn s') := by
  unfold flush
  refine Op.Ends.bind (note_ends hh _ _) ?_
  rintro - - ⟨x, hcalm, -, rfl⟩
  refine Op.Ends.bind ((met_ends (handle_beside hh x) .flush).mono (fun _ _ => id) ?_) ?_
  · rintro e s' ⟨hstruck, hpass⟩
    exact ⟨fun hs => hstruck (hcalm hs), PassesOn.trans ⟨x, hcalm, rfl⟩ hpass⟩
  rintro - - ⟨y, hcalm', -, rfl⟩
  rw [beside_beside]
  refine Op.Ends.discard ((handle_ends (handle_beside hh y) _).mono ?_ fun _ _ => id)
  rintro _ _ ⟨-, rfl⟩
  exact ⟨y, fun hs => hcalm' (hcalm hs), rfl⟩

/-- Closing closes in any case. -/
theorem close_ends (s : Session) :
    close.Ends s
      (fun _ s' => ∃ faults trace, (s.faults = [] → faults = []) ∧
        s' = { s with handle := none, faults, trace })
      (fun _ s' => s.faults ≠ [] ∧ ∃ faults trace,
        s' = { s with handle := none, faults, trace }) := by
  unfold close
  refine Op.Ends.bind (P := fun _ t => t = { s with trace := .closed :: s.trace }) rfl ?_
  rintro - - rfl
  have hmet := meetFault_wears' { s with trace := .closed :: s.trace } .close
  unfold Op.Ends at hmet ⊢
  simp only [Bind.bind, EStateM.bind, Op.attempt]
  cases hrun : meetFault .close { s with trace := .closed :: s.trace } with
  | ok short t =>
    rw [hrun] at hmet
    obtain ⟨hcalm, faults, rfl⟩ := hmet
    exact ⟨faults, _, fun hs => (hcalm hs).2, rfl⟩
  | error e t =>
    rw [hrun] at hmet
    obtain ⟨hfaults, faults, rfl⟩ := hmet
    exact ⟨hfaults, faults, _, rfl⟩

/-- In a mode that makes no file, the raw file is opened as it is, if it is there. -/
theorem openAs_ends {mode : Mode} {there : Bool} (hcreates : mode.createsFile there = false)
    (hclosed : s.handle = none) :
    (openAs (mode.raw there)).Ends s
      (fun _ s' => ∃ file faults trace, s.disk.find? s.path = some file ∧
        (s.faults = [] → faults = []) ∧
        s' = { s with handle := some { file, writable := mode.isWrite }, faults, trace })
      (fun e s' => (s.faults ≠ [] ∨ s.disk.find? s.path = none ∧ e = .file .notFound) ∧
        ∃ faults trace, (s.faults = [] → faults = []) ∧ s' = { s with faults, trace }) := by
  unfold openAs note
  refine Op.Ends.modify_bind (Op.Ends.bind (P := fun _ t => ∃ faults trace,
    (s.faults = [] → faults = []) ∧ t = { s with faults, trace })
    (Op.Ends.discard ((meetFault_wears' _ .openFile).mono ?_ ?_)) ?_)
  · rintro short - ⟨hcalm, faults, rfl⟩
    exact ⟨faults, _, fun hs => (hcalm hs).2, rfl⟩
  · rintro e - ⟨hfaults, faults, rfl⟩
    exact ⟨.inl hfaults, faults, _, fun hs => absurd hs hfaults, rfl⟩
  rintro - - ⟨faults, trace, hcalm, rfl⟩
  have hexisting {writable : Bool} (hwritable : writable = mode.isWrite) :
      (openExisting writable).Ends { s with faults, trace }
        (fun _ s' => ∃ file faults trace, s.disk.find? s.path = some file ∧
          (s.faults = [] → faults = []) ∧
          s' = { s with handle := some { file, writable := mode.isWrite }, faults, trace })
        (fun e s' => (s.faults ≠ [] ∨ s.disk.find? s.path = none ∧ e = .file .notFound) ∧
          ∃ faults trace, (s.faults = [] → faults = []) ∧ s' = { s with faults, trace }) := by
    unfold openExisting
    refine Op.Ends.get_bind ?_
    cases hfound : s.disk.find? s.path with
    | some file =>
      simp only [hwritable]
      exact ⟨file, faults, trace, rfl, hcalm, rfl⟩
    | none => exact ⟨.inr ⟨rfl, rfl⟩, faults, trace, hcalm, rfl⟩
  have hfree : ¬s.handle.isSome = true := by simp [hclosed]
  refine Op.Ends.get_bind ?_
  simp only [if_neg hfree]
  cases mode with
  | scan => exact hexisting rfl
  | read => exact hexisting rfl
  | writeExisting => exact hexisting rfl
  | appendExisting => exact hexisting rfl
  | append =>
    obtain rfl : there = true := by simpa [Mode.createsFile] using hcreates
    exact hexisting rfl
  | write => exact absurd hcreates (by simp [Mode.createsFile])
  | writeNew => exact absurd hcreates (by simp [Mode.createsFile])

end Raw

namespace Container

open Session

variable {s : Session} {h : Handle}

/-- **Bytes that were not all written were written in part,** and nothing in front of them. -/
theorem writeAt_ends (hh : s.handle = some h) (hw : h.writable = true) {start : Nat}
    (hlong : start ≤ (s.disk.contents h.file).length) (data : Bytes) :
    (writeAt start data).Ends s
      (fun _ s' =>
        (s.withContents h.file ((s.disk.contents h.file).overlay start data)).PassesOn s')
      (fun _ s' => s.faults ≠ [] ∧ ∃ written,
        (s.withContents h.file ((s.disk.contents h.file).overlay start written)).PassesOn s') := by
  have hnothing {s' : Session} (hpass : s.PassesOn s') : ∃ written,
      (s.withContents h.file ((s.disk.contents h.file).overlay start written)).PassesOn s' :=
    ⟨[], by rwa [Bytes.overlay_nil hlong, withContents_self]⟩
  unfold writeAt
  refine Op.Ends.bind ((Raw.seek_ends hh start).mono (fun _ _ => id)
    fun _ _ h' => ⟨h'.1, hnothing h'.2⟩) ?_
  rintro - - ⟨x, hcalm, hx, rfl⟩
  refine Op.Ends.bind ((Raw.write_ends (handle_beside hh x) hw (by simpa [hx] using hlong)
    data).mono (fun _ _ => id) ?_) ?_
  · rintro e s' ⟨hstruck, hpass⟩
    exact ⟨fun hs => hstruck (hcalm hs), hnothing (PassesOn.trans ⟨x, hcalm, rfl⟩ hpass)⟩
  rintro _ s' ⟨written, rfl, hwhich, y, hcalm', rfl⟩
  simp only [disk_beside, hx]
  have hpass (put : Bytes) : (s.withContents h.file put).PassesOn
      (((s.beside x).withContents h.file put).beside y) :=
    ⟨y, fun hs => hcalm' (hcalm hs), by simp [withContents, beside, hh]⟩
  refine Op.Ends.ite (fun hshort => ⟨fun hs => ?_, written, hpass _⟩) fun hall => ?_
  · rcases hwhich with rfl | ⟨hstruck, -⟩
    · exact hshort rfl
    · exact hstruck (hcalm hs)
  · obtain rfl : written = data := by
      rcases hwhich with rfl | ⟨-, rfl⟩
      · rfl
      · have hnil : data.length = 0 := by
          rw [List.length_dropLast] at hall
          omega
        rw [List.length_eq_zero_iff.mp hnil, List.dropLast_nil]
    exact hpass _

end Container

end Vault
