import Vault.Proofs.Stamping

/-!
# `Vault/Proofs/Overlooked.lean` — what a stamp keeps when faults strike

A stamp has two fields, and setting one is meant to keep the other. For that the old stamp is loaded
first; where it cannot be loaded, a new one is made. Loading fails where there is no stamp, and it
fails where a fault strikes, and setting does not ask which. So **a stamp that was set keeps the
other field if the old stamp could be loaded, and loses it if a fault kept it from being loaded**
(`stamp_keeps_iff_loaded`). Nothing else is lost, and no fault that strikes elsewhere matters.
-/

set_option autoImplicit false

namespace Vault

open Container

namespace Session

variable {s s' t : Session} {v : Source}

/-- What a closed container would reveal without faults, it reveals where none strikes. -/
theorem Reveals.struck (h : Reveals { s with faults := [] } v) :
    s.Reveals { v with calm := false } where
  closed := h.closed
  faults := nofun
  disk := h.disk
  path := h.path
  processor := h.processor
  revealed := h.revealed.recalm false

/-- Once the faults are used up, all that is there is revealed. -/
theorem Reveals.becalmed (h : s.Reveals v) (hfaults : s.faults = []) :
    s.Reveals { v with calm := true } where
  closed := h.closed
  faults _ := hfaults
  disk := h.disk
  path := h.path
  processor := h.processor
  revealed := h.revealed.recalm true

end Session

namespace Container

open Session

variable {s s' t u : Session} {v : Source} {kind : StampKind} {old : Stamp}

/-- A stamp that is there is overlooked only because of a fault. -/
theorem overlooks_calm (h : s.Reveals v) (hold : old.StandsIn v.trailing) {hasher : StampHasher}
    (hhash : hashFile kind s = .ok hasher u) (hfaults : u.faults = []) :
    overlooks kind s = false := by
  have hu := ((hashFile_ends h kind).of_ok hhash).1.becalmed hfaults
  rw [overlooks_of_hashed hhash]
  cases hload : loadStamp u with
  | ok st w => rw [Op.succeeds_of_ok hload]; rfl
  | error e w =>
    -- with no faults left, loading fails for one reason only: there is no stamp
    obtain ⟨-, hfaulty | hnone⟩ := (loadStamp_ends hu).of_error hload
    · exact absurd hfaulty (by simp)
    · exact absurd ((Stamp.ofTail_eq_ok_iff.mpr hold).symm.trans hnone) (by simp)

/-- **What a stamp keeps when faults strike.** Let the metadata of a closed container be readable if
there were no faults, and let a digest or an authentication code be put into its stamp, whatever
faults there are. If that answers, the container is closed, nothing in front of the end of the chunk
data changed, and behind it stands a stamp with the right value and nothing else. Of a stamp that
stood there before, the other field is kept if that stamp could be loaded once the value was
computed; if it could not, that field is gone. And it could be loaded if no faults were left. -/
theorem stamp_keeps_iff_loaded (h : launchMetadata .scan { s with faults := [] } = .ok () t)
    (hstamp : stamp kind s = .ok () s') :
    ∃ file keys, s.disk.find? s.path = some file ∧ t.processor.keys = some keys ∧
      let covered := (s.disk.contents file).take t.eofPos
      let trailing := (s.disk.contents file).drop t.eofPos
      let value := kind.value (keys.deriver.derive KeyDeriver.macLabel) covered
      ∃ st : Stamp, s'.handle = none ∧ s'.path = s.path ∧
        s'.disk = s.disk.setContents file (covered ++ st.framed) ∧
        s'.disk.contents file = covered ++ st.framed ∧ st.StandsIn st.framed ∧
        st.field kind = some value ∧
        ∀ old : Stamp, old.StandsIn trailing →
          (∀ other, other ≠ kind →
            st.field other = if overlooks kind s then none else old.field other) ∧
          ∀ hasher u, hashFile kind s = .ok hasher u → u.faults = [] →
            overlooks kind s = false := by
  obtain ⟨v, hcalm, -, ht⟩ := launchMetadata_eq_ok rfl h rfl
  -- what was read without faults is what the closed container would reveal with them
  have hs := hcalm.struck
  obtain ⟨hfound, hlisted, -, hkeys⟩ := hs.revealed.present
  obtain ⟨keys, hkeys⟩ := Option.isSome_iff_exists.mp hkeys
  refine ⟨v.file, keys, by rw [hs.disk, hs.path]; exact hfound, ht.processor ▸ hkeys, ?_⟩
  have hvalue : kind.value (keys.deriver.derive KeyDeriver.macLabel) v.covered = v.value kind := by
    simp only [Source.value, Source.macKey, show v.processor.keys = some keys from hkeys]
  simp only [hs.disk, ht.eofPos]
  change ∃ st : Stamp, s'.handle = none ∧ s'.path = s.path ∧
    s'.disk = v.disk.setContents v.file (v.covered ++ st.framed) ∧
    s'.disk.contents v.file = v.covered ++ st.framed ∧ st.StandsIn st.framed ∧
    st.field kind = some (kind.value _ v.covered) ∧ ∀ old : Stamp, old.StandsIn v.trailing → _
  rw [hvalue]
  -- setting ends with the old stamp put, or with a new one, and it says which
  obtain ⟨old', hs', hold'⟩ := (stamp_ends hs kind).of_ok hstamp
  have hvalid : old'.Valid := by
    rcases hold' with ⟨-, hold'⟩ | ⟨-, rfl, -⟩
    · exact Stamp.valid_of_ofTail hold'
    · exact Stamp.valid_default
  refine ⟨old'.put kind (v.value kind), hs'.closed, hs'.path.trans hs.path.symm, hs'.disk, ?_,
    (Source.valid_put_value hvalid v kind).standsIn_framed, Stamp.field_put_self _ _ _,
    -- the old stamp was loaded or not; what is left of the other field depends on nothing else
    fun old hold => ⟨fun other hother => ?_, fun hasher u => overlooks_calm hs hold⟩⟩
  · rw [hs'.disk]
    exact Disk.contents_setContents hlisted _
  rw [Stamp.field_put_of_ne hother]
  -- there is one stamp behind the covered bytes, so the one that was loaded is the one meant
  rcases hold' with ⟨hloads, hold'⟩ | ⟨hmisses, rfl, -⟩
  · obtain rfl := Except.ok.inj ((Stamp.ofTail_eq_ok_iff.mpr hold).symm.trans hold')
    rw [hloads]
    rfl
  · -- a new stamp has no other field
    rw [hmisses]
    cases other <;> rfl

/-- The authentication code of a container with three bytes is in its stamp. The read that would
load the stamp fails while the digest is put there: it is put, and the code is gone. -/
theorem stamp_keeps_iff_loaded_struck :
    ∃ s s' t : Session, ∃ old st : Stamp,
      launchMetadata .scan { s with faults := [] } = .ok () t ∧ stamp .digest s = .ok () s' ∧
      s.faults = [⟨.read, 3, .fail⟩] ∧ old.StandsIn ((s.disk.contents 0).drop t.eofPos) ∧
      (old.field .mac).isSome = true ∧
      s'.disk.contents 0 = (s.disk.contents 0).take t.eofPos ++ st.framed ∧
      st.field .mac = none := by
  let closed : Session := close.after (((openIn .write).after (Session.pristine "vault"
    (Processor.ofConfig ⟨[7]⟩ { chunkMax := 2 }) {} (Random.seeded 0))).afterCalls
    [.write [1, 2, 3]])
  let s : Session := { (stamp .mac).after closed with faults := [⟨.read, 3, .fail⟩] }
  obtain ⟨⟨⟩, hopens⟩ : ∃ a, launchMetadata .scan { s with faults := [] }
      = .ok a ((launchMetadata .scan).after { s with faults := [] }) :=
    Op.ok_of_succeeds (by decide +kernel)
  obtain ⟨⟨⟩, hstamps⟩ : ∃ a, stamp .digest s = .ok a ((stamp .digest).after s) :=
    -- the third read of the digest's run is the one that would have loaded the stamp
    Op.ok_of_succeeds (by decide +kernel)
  have hmisses : overlooks .digest s = true := by decide +kernel
  have hplace : s.disk.find? s.path = some 0 := by decide +kernel
  let tail : Bytes := (s.disk.contents 0).drop
    ((launchMetadata .scan).after { s with faults := [] }).eofPos
  have hmac : ((Stamp.ofTail tail).toOption.bind (·.field .mac)).isSome = true := by
    decide +kernel
  obtain ⟨old, hold, hfield⟩ : ∃ old, Stamp.ofTail tail = .ok old ∧
      (old.field .mac).isSome = true := by
    cases hfound : Stamp.ofTail tail with
    | ok old =>
      rw [hfound] at hmac
      exact ⟨old, rfl, hmac⟩
    | error e =>
      rw [hfound] at hmac
      exact absurd hmac (by simp [Except.toOption])
  obtain ⟨file, _, hfile, -, st, -, -, -, hcontents, -, -, hkeeps⟩ :=
    stamp_keeps_iff_loaded hopens hstamps
  obtain rfl : 0 = file := Option.some.inj (hplace.symm.trans hfile)
  have hstands := Stamp.ofTail_eq_ok_iff.mp hold
  refine ⟨s, _, _, old, st, hopens, hstamps, rfl, hstands, hfield, hcontents, ?_⟩
  rw [(hkeeps old hstands).1 .mac (by decide), hmisses]
  rfl

end Container

end Vault
