import Vault.Proofs.Bytes

/-!
# `Vault/Proofs/Trail.lean` — what stands behind the chunk data

Behind the chunk data of a raw file there may be anything, a stamp above all. A container that is
open leaves it where it is as long as the content keeps its size, and cuts it off before the first
byte of chunk data is written there. **That happens once, and not before it has to:** what was cut
off is known to be gone (`Trail.cut`), and of what was not it is known where it stands and for which
size (`Trail.kept`). The lemmas say how that knowledge goes through what a container does.
-/

set_option autoImplicit false

namespace Vault

/-- What is known of the bytes behind the chunk data. -/
inductive Trail where
  /-- There may be any. -/
  | unknown
  /-- There are none. -/
  | cut
  /-- As long as the content has this size, they are those that stood there when the container was
  opened. -/
  | kept (size eofPos : Nat) (bytes : Bytes)
deriving DecidableEq

/-- What is known is so. A trail is cut off before chunk data first grow, and they grow because the
content did. -/
def Trail.Fits (t : Trail) (raw : Bytes) (eofPos size stored : Nat) (tailCut : Bool) : Prop :=
  match t with
  | unknown => True
  | cut => raw.drop eofPos = []
  | kept before start bytes =>
    (raw.drop eofPos = [] ∧ before < size) ∨
      (tailCut = false ∧ eofPos = start ∧ stored = before ∧ raw.drop eofPos = bytes)

namespace Trail

variable {t : Trail} {raw raw' : Bytes} {eofPos size size' stored : Nat} {tailCut : Bool}

/-- A content that is longer in memory changes nothing in the file. -/
theorem Fits.grow (h : t.Fits raw eofPos size stored tailCut) (hle : size ≤ size') :
    t.Fits raw eofPos size' stored tailCut := by
  cases t with
  | unknown => trivial
  | cut => exact h
  | kept before start bytes => exact Or.imp (And.imp id fun hlt => Nat.lt_of_lt_of_le hlt hle) id h

/-- What was not cut off may still be when the file is opened again. -/
theorem Fits.reopen (h : t.Fits raw eofPos size stored tailCut) :
    t.Fits raw eofPos size stored false := by
  cases t with
  | unknown => trivial
  | cut => exact h
  | kept before start bytes => exact Or.imp id (And.imp (fun _ => rfl) id) h

/-- Only what stands behind the chunk data matters. -/
theorem Fits.of_drop (h : t.Fits raw eofPos size stored tailCut)
    (hdrop : raw'.drop eofPos = raw.drop eofPos) : t.Fits raw' eofPos size stored tailCut := by
  cases t with
  | unknown => trivial
  | cut => exact hdrop.trans h
  | kept before start bytes =>
    unfold Fits at h ⊢
    rwa [hdrop]

/-- What was cut off stays cut off, wherever the chunk data end now. -/
theorem Fits.advance {eofPos' stored' : Nat} {tailCut' : Bool}
    (h : t.Fits raw eofPos size stored true)
    (hdrop : raw.drop eofPos = [] → raw'.drop eofPos' = []) :
    t.Fits raw' eofPos' size stored' tailCut' := by
  cases t with
  | unknown => trivial
  | cut => exact hdrop h
  | kept before start bytes =>
    -- a trail that was kept up to here goes only with a tail that was not cut off
    rcases h with ⟨hnil, hgrown⟩ | ⟨hbad, -⟩
    · exact .inl ⟨hdrop hnil, hgrown⟩
    · exact absurd hbad (by simp)

/-- What is written in front of the end of the chunk data leaves the trail alone. -/
theorem Fits.overlay_front (h : t.Fits raw eofPos size stored tailCut) {start : Nat} {data : Bytes}
    (hle : start + data.length ≤ eofPos) :
    t.Fits (raw.overlay start data) eofPos size stored tailCut :=
  h.of_drop (Bytes.drop_overlay_of_ge hle)

/-- Chunk data that are written beyond the end find the trail cut off. -/
theorem Fits.overlay (h : t.Fits raw eofPos size stored tailCut) {start eofPos' stored' : Nat}
    {data : Bytes} (hend : start + data.length ≤ eofPos')
    (hcut : eofPos < start + data.length → tailCut = true)
    (hsame : start + data.length ≤ eofPos → eofPos' = eofPos ∧ stored' = stored) :
    t.Fits (raw.overlay start data) eofPos' size stored' tailCut := by
  by_cases hlt : eofPos < start + data.length
  · obtain rfl := hcut hlt
    -- chunk data reach beyond their end, so the tail was cut off before
    refine h.advance fun hnil => ?_
    rw [Bytes.drop_overlay_of_ge hend]
    have hraw : raw.length ≤ eofPos := List.drop_eq_nil_iff.mp hnil
    exact List.drop_eq_nil_of_le (by omega)
  · obtain ⟨rfl, rfl⟩ := hsame (Nat.le_of_not_lt hlt)
    -- nothing reaches beyond the end, and the end stays where it is
    exact h.overlay_front (Nat.le_of_not_lt hlt)

/-- Where nothing stands behind the chunk data, the content must have grown. -/
theorem fits_of_nil (hnil : raw.drop eofPos = [])
    (hgrown : ∀ before start bytes, t = .kept before start bytes → before < size) :
    t.Fits raw eofPos size stored tailCut := by
  cases t with
  | unknown => trivial
  | cut => exact hnil
  | kept before start bytes => exact .inl ⟨hnil, hgrown _ _ _ rfl⟩

/-- Where the content that is seen is longer than the stored one, it is longer than it was. -/
theorem Fits.grown (h : t.Fits raw eofPos size stored tailCut) (hlt : t ≠ .cut → stored < size)
    (before start : Nat) (bytes : Bytes) (ht : t = .kept before start bytes) : before < size := by
  subst ht
  rcases h with ⟨-, hgrown⟩ | ⟨-, -, rfl, -⟩
  · exact hgrown
  · exact hlt nofun

/-- At first what stands behind the chunk data is what stands there. -/
theorem fits_kept : (kept size eofPos (raw.drop eofPos)).Fits raw eofPos size size false :=
  .inr ⟨rfl, rfl, rfl, rfl⟩

/-- What stands behind the chunk data is what stood there, or nothing. -/
theorem Fits.of_kept {before start : Nat} {bytes : Bytes}
    (h : (kept before start bytes).Fits raw eofPos size stored tailCut) :
    raw.drop eofPos = [] ∨ raw.drop eofPos = bytes :=
  Or.imp And.left (fun h => h.2.2.2) h

end Trail

end Vault
