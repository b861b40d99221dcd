import Vault.Proofs.BrowsingOpening
import Vault.Proofs.Calls

/-!
# `Vault/Proofs/Untrusted.lean` — any file is safe to open and read

Whoever hands over a raw file decides what stands in it: header, descriptor, sizes and chunks. This
is what users can rely on all the same. **Whatever the file holds and whatever is asked for, every
computation comes to its end with all its numbers fitting and all its places there,** that is, its
checked form is never trapped; and a read gives no more than was asked for and than there is.

Faults may be armed at any time, and nothing has to succeed: what is asked for next is safe too.
-/

set_option autoImplicit false

namespace Vault

/-- What is asked of a container that is only read. -/
inductive Request where
  | openIn (mode : Mode)
  | close
  | seek (pos : Nat)
  | read (n : Nat)
  | position
  | contentSize
  | usedSize
  | invalidate
  | setMaxCached (count : Nat)
  | setCacheEnabled (enabled : Bool)
deriving DecidableEq

namespace Request

/-- Asks. -/
def run : Request → Op Answer
  | openIn mode => do Container.openIn mode; return .done
  | close => do Container.close; return .done
  | seek pos => do Container.seek pos; return .done
  | read n => do return .data (← Container.read n)
  | position => do return .number (← get).pos
  | contentSize => do return .number (← Container.contentSize)
  | usedSize => do return .number (← Container.usedSize)
  | invalidate => do Container.invalidate; return .done
  | setMaxCached count => do Container.setMaxCached count; return .done
  | setCacheEnabled enabled => do Container.setCacheEnabled enabled; return .done

/-- Asks, with everything checked. -/
def runChecked : Request → CheckedOp Answer
  | openIn mode => do Container.openInChecked mode; return .done
  | close => do Container.closeChecked; return .done
  | seek pos => do Container.seekChecked pos; return .done
  | read n => do return .data (← Container.readChecked n)
  | position => do return .number (← get).pos
  | contentSize => do return .number (← Container.contentSizeChecked)
  | usedSize => do return .number (← Container.usedSizeChecked)
  | invalidate => do Container.invalidateChecked; return .done
  | setMaxCached count => do Container.setMaxCachedChecked count; return .done
  | setCacheEnabled enabled => do Container.setCacheEnabledChecked enabled; return .done

/-- The container is opened for reading only, and numbers have 64 bits. -/
def Allowed : Request → Prop
  | openIn mode => mode.isWrite = false
  | seek pos => pos < offsetLimit
  | read n => n < offsetLimit
  | setMaxCached count => count < offsetLimit
  | _ => True

/-- A read answers with no more bytes than were asked for, and than there are. -/
def Bounded (s : Session) : Request → Answer → Prop
  | read n, .data data => data.length ≤ min n (s.size - s.pos)
  | _, _ => True

end Request

namespace Session

/-- The container is closed, or it browses what is in its place. -/
def Safe (s : Session) (w : Place) : Prop :=
  s.Closed w ∨ ∃ v : Source, v.Sound ∧ v.toPlace = w ∧ s.Browses v

variable {s s' : Session} {w : Place} {v : Source}

theorem Browses.safe (h : s.Browses v) (hv : v.Sound) : s.Safe v.toPlace := .inr ⟨v, hv, rfl, h⟩

/-- What was read is no longer than the rest of the content. -/
theorem Delivers.length_le {d data : Bytes} {n : Nat} (h : s.Delivers s' v d n data)
    (hs : s.Browses v) : data.length ≤ min n (s.size - s.pos) := by
  rw [h.gives, Bytes.length_slice, List.length_take, hs.size, Container.pos]
  omega

end Session

open Session Container CheckedOp

variable {s s' : Session} {w : Place} {v : Source}

/-- What is asked of a closed container. -/
theorem Request.run_closed (h : s.Closed w) (hw : w.Addressable) (request : Request)
    (hallowed : request.Allowed) :
    request.runChecked.Does request.run s (fun a s' => s'.Safe w ∧ request.Bounded s a)
      (fun _ s' => s'.Safe w) := by
  -- what is refused on a closed container leaves it as it was
  have hsame {t : Session} (ht : t = s) : t.Safe w := .inl (ht ▸ h)
  cases request with
  | openIn mode =>
    refine Does.bind ((openIn_closed h hallowed hw).mono (fun _ _ => id) fun _ _ h' => .inl h'.1) ?_
    rintro - t ⟨v, hfind, hv, -⟩
    -- the survey that opening agrees with bounds every number of the source
    have hplace := Place.toPlace_of_survey hfind
    have hsound : v.Sound := Place.sound_of_survey hallowed hfind hw
    exact Does.pure ⟨hplace ▸ hv.safe hsound, trivial⟩
  | close => exact Does.bind (close_closed h) fun _ _ ht => Does.pure ⟨hsame ht, trivial⟩
  | seek pos =>
    exact Does.bind (P := fun _ _ => False)
      ((seek_closed h pos).mono (fun _ _ => id) fun _ _ => hsame) fun _ _ h' => h'.elim
  | read n =>
    refine Does.answer ((read_closed h n).mono (fun _ _ => id) fun _ _ => hsame) ?_
    rintro data t ⟨rfl, ht⟩
    exact ⟨hsame ht, Nat.zero_le _⟩
  | position => exact Does.get_bind (Does.pure ⟨.inl h, trivial⟩)
  | contentSize =>
    refine Does.answer ((contentSize_closed h hw).mono (fun _ _ => id) fun _ _ => .inl) ?_
    exact fun n t ht => ⟨.inl ht.1, trivial⟩
  | usedSize =>
    refine Does.answer ((usedSize_closed h hw).mono (fun _ _ => id) fun _ _ => .inl) ?_
    exact fun n t ht => ⟨.inl ht.1, trivial⟩
  | invalidate =>
    exact Does.bind (P := fun _ _ => False)
      ((invalidate_closed h).mono (fun _ _ => id) fun _ _ => hsame) fun _ _ h' => h'.elim
  | setMaxCached count =>
    exact Does.bind (setMaxCached_closed h hallowed) fun _ _ ht => Does.pure ⟨.inl ht, trivial⟩
  | setCacheEnabled enabled =>
    exact Does.bind (setCacheEnabled_closed h enabled) fun _ _ ht => Does.pure ⟨.inl ht, trivial⟩

/-- What is asked of a container that browses, and does not end that. -/
theorem Request.run_stays (h : s.Browses v) (hv : v.Sound) (request : Request)
    (hallowed : request.Allowed) (hstays : request ≠ .close) :
    request.runChecked.Does request.run s (fun a s' => s'.Browses v ∧ request.Bounded s a)
      (fun _ s' => s'.Browses v) := by
  have hsame {t : Session} (ht : t = s) : t.Browses v := ht ▸ h
  cases request with
  | openIn mode =>
    exact Does.bind (P := fun _ _ => False)
      ((openIn_browses h mode).mono (fun _ _ => id) fun _ _ => hsame) fun _ _ h' => h'.elim
  | close => exact absurd rfl hstays
  | seek pos =>
    exact Does.bind ((seek_browses h hv pos).mono (fun _ _ => id) fun _ _ ht => ht.1)
      fun _ _ ht => Does.pure ⟨ht.1, trivial⟩
  | read n =>
    -- a sound source serves some content, and a read gives a piece of that
    obtain ⟨d, hd, -⟩ := hv.serves
    refine Does.answer ((read_browses h hv hd n).mono (fun _ _ => id)
      fun _ _ h' => h'.browses) ?_
    exact fun data t ht => ⟨ht.browses, ht.length_le h⟩
  | position => exact Does.get_bind (Does.pure ⟨h, trivial⟩)
  | contentSize =>
    exact Does.answer (contentSize_browses h) fun _ _ ht => ⟨hsame ht.2, trivial⟩
  | usedSize =>
    exact Does.answer (usedSize_browses h hv) fun _ _ ht => ⟨hsame ht.2, trivial⟩
  | invalidate =>
    exact Does.bind ((invalidate_browses h hv).mono (fun _ _ => id) fun _ _ ht => ht.browses)
      fun _ _ ht => Does.pure ⟨ht.browses, trivial⟩
  | setMaxCached count =>
    exact Does.bind (setMaxCached_browses h hallowed)
      fun _ _ ht => Does.pure ⟨ht.browses, trivial⟩
  | setCacheEnabled enabled =>
    exact Does.bind (setCacheEnabled_browses h enabled)
      fun _ _ ht => Does.pure ⟨ht.browses, trivial⟩

/-- What is asked of a container that browses. -/
theorem Request.run_browses (h : s.Browses v) (hv : v.Sound) (request : Request)
    (hallowed : request.Allowed) :
    request.runChecked.Does request.run s (fun a s' => s'.Safe v.toPlace ∧ request.Bounded s a)
      (fun _ s' => s'.Safe v.toPlace) := by
  by_cases hstays : request = .close
  · subst hstays
    exact Does.bind ((close_browses h hv).mono (fun _ _ => id) fun _ _ => .inl)
      fun _ _ ht => Does.pure ⟨.inl ht, trivial⟩
  · exact (request.run_stays h hv hallowed hstays).mono
      (fun _ _ ht => ⟨ht.1.safe hv, ht.2⟩) fun _ _ ht => ht.safe hv

/-- **What is asked of a safe container is not trapped, and leaves it safe.** -/
theorem Request.run_safe (h : s.Safe w) (hw : w.Addressable) (request : Request)
    (hallowed : request.Allowed) :
    request.runChecked.Does request.run s (fun a s' => s'.Safe w ∧ request.Bounded s a)
      (fun _ s' => s'.Safe w) := by
  rcases h with hclosed | ⟨v, hv, rfl, hbrowses⟩
  · exact request.run_closed hclosed hw hallowed
  · exact request.run_browses hbrowses hv hallowed

/-! ## Everything that can be asked

Between two requests more faults may be armed; the files are given once. The invariant is
`Session.Safe`, and one request keeps it whether it is answered or not. -/

/-- The states of a container that is given a disk with any files on it and asked anything that has
to do with reading, with faults armed at any time. -/
inductive Visited : Session → Prop
  | given {path : String} {processor : Processor} {config : ContainerConfig} {c : Container}
      {disk : Disk} {random : Random} (made : Container.new path processor config = .ok c)
      (chunks : config.maxCachedChunks < offsetLimit)
      (files : ∀ file ∈ disk.files, file.length < offsetLimit) : Visited { c with disk, random }
  | armed {s : Session} (fault : Fault) (before : Visited s) :
      Visited { s with toContainer := s.toContainer.arm fault }
  | asked {s : Session} (request : Request) (allowed : request.Allowed) (before : Visited s) :
      Visited (request.run.after s)

/-- One more fault makes no container unsafe. -/
theorem Session.Safe.armed (h : s.Safe w) (hw : w.calm = false) (fault : Fault) :
    Safe { s with toContainer := s.toContainer.arm fault } w := by
  rcases h with hclosed | ⟨v, hv, rfl, hbrowses⟩
  · exact .inl { hclosed with calm := fun hc => absurd (hw.symm.trans hc) (by simp) }
  · exact .inr ⟨v, hv, rfl, { hbrowses with calm := fun hc => absurd (hw.symm.trans hc) (by simp) }⟩

/-- **Every state that is visited is safe.** -/
theorem Visited.safe (h : Visited s) :
    ∃ w : Place, w.Addressable ∧ w.calm = false ∧ s.Safe w := by
  -- by induction on how the state was come to
  induction h with
  | @given path processor config c disk random made chunks files =>
    have hmade : c = { path, processor, config, pool := Pool.new config.maxCachedChunks } := by
      unfold Container.new at made
      split at made
      · exact absurd made (by simp)
      · exact (Except.ok.inj made).symm
    subst hmade
    refine ⟨{ disk, path, calm := false }, fun file _ => ?_, rfl, .inl ?_⟩
    · -- a file that is not listed has no bytes
      simp only [Disk.contents, List.getD_eq_getElem?_getD]
      cases hfile : disk.files[file]? with
      | none => exact (by decide : ([] : Bytes).length < offsetLimit)
      | some data => exact files data (List.mem_of_getElem? hfile)
    · have hlimit : 1 < offsetLimit := by decide
      refine
        { disk := rfl, path := rfl, handle := rfl, calm := by simp, pool := rfl, room := ?_
          capacity := ?_ }
      · simp only [Pool.new]
        omega
      · simp only [Pool.new]
        omega
  | armed fault before ih =>
    obtain ⟨w, hw, hcalm, hsafe⟩ := ih
    exact ⟨w, hw, hcalm, hsafe.armed hcalm fault⟩
  | asked request allowed before ih =>
    obtain ⟨w, hw, hcalm, hsafe⟩ := ih
    have hends := (request.run_safe hsafe hw allowed).ends
    exact ⟨w, hw, hcalm, (hends.mono (fun _ _ h' => h'.1) fun _ _ => id).after⟩

/-- **Any file is safe to open and read:** whatever was asked before and whatever faults there are,
what is asked for next comes to its end with nothing that does not fit or is not there, and a read
gives no more than it may. -/
theorem Visited.never_trapped (h : Visited s) (request : Request) (hallowed : request.Allowed) :
    request.runChecked s = CheckedOp.ofOp request.run s ∧
      ∀ a s', request.run s = .ok a s' → request.Bounded s a := by
  obtain ⟨w, hw, -, hsafe⟩ := h.safe
  have hdoes := request.run_safe hsafe hw hallowed
  exact ⟨hdoes.same, fun a s' hrun => (hdoes.ends.of_ok hrun).2⟩

/-- A closed container on a file that was just made, into whose header another size of the content
and no size of chunk data was written. -/
def Session.overstated : Session :=
  let s := pristine "vault" (Processor.ofConfig ⟨[7]⟩ { chunkMax := 16 }) {} (Random.seeded 0)
  let made := (Container.openIn .write).after s
  { s with
    disk := made.disk.setContents 0 ((made.disk.contents 0).overlay Header.plaintextAt
      (Bytes.ofNatLE 8 10 ++ Bytes.ofNatLE 8 0)) }

theorem Session.visited_overstated : Visited overstated := by
  have hmade : Container.new "vault" (Processor.ofConfig ⟨[7]⟩ { chunkMax := 16 }) {}
      = .ok overstated.toContainer := rfl
  exact .given hmade (by decide) (by decide +kernel)

/-- The header is believed, and a read of all that it promises is safe. -/
theorem Session.never_trapped_overstated :
    ((Request.openIn .read).run.after overstated).size = 10 ∧
    (Request.read 10).runChecked ((Request.openIn .read).run.after overstated)
      = CheckedOp.ofOp (Request.read 10).run ((Request.openIn .read).run.after overstated) ∧
    ∀ a s', (Request.read 10).run ((Request.openIn .read).run.after overstated) = .ok a s' →
      (Request.read 10).Bounded ((Request.openIn .read).run.after overstated) a :=
  ⟨by decide +kernel,
    Visited.never_trapped (.asked (.openIn .read) rfl visited_overstated) (.read 10)
      (by decide : 10 < offsetLimit)⟩

end Vault
