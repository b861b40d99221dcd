import Vault.Proofs.Keystream
import Vault.Proofs.Words

/-!
# `Vault/Proofs/Piecewise.lean` — a content is encrypted alike in whatever pieces it comes

An encryptor is asked for some bytes, then for some more, or it is thrown away and a new one is
moved to where the last one stopped. **None of this is seen in the ciphertext:** each byte of a
content is combined with the byte of the key stream that belongs to its place, and to nothing else
(`StreamEncryptor.pieces_encrypt_alike`).

The key stream itself is defined here a second time, as the cipher's definition has it: sixteen
words in four rows and four columns, a round along the rows, and a round down the columns that is
the same with rows and columns exchanged (`Salsa20.block_eq`). The computation names its sixteen
words one by one instead.
-/

set_option autoImplicit false

namespace Vault

namespace Salsa20

/-! ## The words of a block in rows and columns

The definition works on words, the key stream on bytes. A grid of words and its bytes are turned
into each other here, and nothing of the cipher's computation is used. -/

/-- Four rows of four words. -/
abbrev Grid := Fin 4 → Fin 4 → UInt32

namespace Grid

/-- The bits of a word, moved to the left in a circle. -/
def turned (x : UInt32) (n : Nat) : UInt32 := ⟨x.toBitVec.rotateLeft n⟩

/-- Four words, changed in turn: each is combined with the sum of the two in front of it. -/
def stirred (y : Fin 4 → UInt32) : Fin 4 → UInt32 :=
  let z₁ := y 1 ^^^ turned (y 0 + y 3) 7
  let z₂ := y 2 ^^^ turned (z₁ + y 0) 9
  let z₃ := y 3 ^^^ turned (z₂ + z₁) 13
  let z₀ := y 0 ^^^ turned (z₃ + z₂) 18
  fun
  | 0 => z₀
  | 1 => z₁
  | 2 => z₂
  | 3 => z₃

/-- A round along the rows, each of which begins at the diagonal. -/
def alongRows (x : Grid) : Grid := fun i j => stirred (fun k => x i (i + k)) (j - i)

/-- Rows and columns exchanged. -/
def transposed (x : Grid) : Grid := fun i j => x j i

/-- A round down the columns, and one along the rows. -/
def doubleRound (x : Grid) : Grid := alongRows (transposed (alongRows (transposed x)))

/-- The words of 64 bytes, in order. -/
def ofBytes (b : Bytes) : Grid :=
  fun i j => UInt32.ofNat (Bytes.toNatLE (b.slice (4 * (4 * i + j)) 4))

/-- The bytes of sixteen words, in order. -/
def toBytes (x : Grid) : Bytes :=
  (List.finRange 4).flatMap fun i =>
    (List.finRange 4).flatMap fun j => Bytes.ofNatLE 4 (x i j).toNat

end Grid

/-- What 64 bytes are hashed to: their words after ten double rounds, added to the words that they
were. -/
def hashed (b : Bytes) : Bytes :=
  Grid.toBytes fun i j => Grid.ofBytes b i j + Nat.repeat Grid.doubleRound 10 (Grid.ofBytes b) i j

/-- The 64 bytes that a block is the hash of: "expand 32-byte k" in four parts, and between them the
halves of the key, the nonce and the block's number in eight bytes. -/
def expanded (key nonce : Bytes) (number : Nat) : Bytes :=
  [0x65, 0x78, 0x70, 0x61] ++ (key.take 16 ++ ([0x6e, 0x64, 0x20, 0x33] ++
    (nonce ++ (Bytes.ofNatLE 8 number ++ ([0x32, 0x2d, 0x62, 0x79] ++
      (key.drop 16 ++ [0x74, 0x65, 0x20, 0x6b]))))))

/-- The byte of the key stream at a place. -/
def mask (key nonce : Bytes) (place : Nat) : UInt8 :=
  (hashed (expanded key nonce (place / 64))).getD (place % 64) 0

/-! ## Blocks are what their definition says

The computation names sixteen variables, where the definition has four rounds of four words. They
are compared place by place, and the ten rounds by induction. -/

/-- The words of a matrix by row and column. -/
def Matrix.grid (m : Matrix) : Grid := fun i j => m.toList.getD (4 * i + j) 0

/- The rounds name each of the sixteen words, so the grids are compared at each of their places. -/

theorem grid_rowRound (m : Matrix) : (rowRound m).grid = Grid.alongRows m.grid := by
  funext i j
  match i, j with
  | 0, 0 | 0, 1 | 0, 2 | 0, 3 => rfl
  | 1, 0 | 1, 1 | 1, 2 | 1, 3 => rfl
  | 2, 0 | 2, 1 | 2, 2 | 2, 3 => rfl
  | 3, 0 | 3, 1 | 3, 2 | 3, 3 => rfl

theorem grid_columnRound (m : Matrix) :
    (columnRound m).grid = (Grid.alongRows m.grid.transposed).transposed := by
  funext i j
  match i, j with
  | 0, 0 | 0, 1 | 0, 2 | 0, 3 => rfl
  | 1, 0 | 1, 1 | 1, 2 | 1, 3 => rfl
  | 2, 0 | 2, 1 | 2, 2 | 2, 3 => rfl
  | 3, 0 | 3, 1 | 3, 2 | 3, 3 => rfl

theorem repeat_doubleRound_succ (n : Nat) (x : Grid) :
    Nat.repeat Grid.doubleRound (n + 1) x = Nat.repeat Grid.doubleRound n x.doubleRound := by
  induction n with
  | zero => rfl
  | succ n ih => exact congrArg Grid.doubleRound ih

theorem grid_doubleRounds (n : Nat) (m : Matrix) :
    (doubleRounds n m).grid = Nat.repeat Grid.doubleRound n m.grid := by
  induction n generalizing m with
  | zero => rfl
  | succ n ih =>
    rw [doubleRounds, ih, grid_rowRound, grid_columnRound, repeat_doubleRound_succ]
    rfl

theorem flatMap_ofWordLE (m m' : Matrix) :
    (List.zipWith (· + ·) m.toList m'.toList).flatMap Bytes.ofWordLE
      = Grid.toBytes fun i j => m.grid i j + m'.grid i j := by
  rw [funext Bytes.ofWordLE_eq]
  rfl

section
variable {key nonce : Bytes}

theorem wordsLE_expanded (hkey : key.length = 32) (hnonce : nonce.length = nonceSize) (n : Nat) :
    Bytes.wordsLE (expanded key nonce n) = (input key nonce (UInt64.ofNat n)).toList := by
  have htake : (key.take 16).length = 16 := by rw [List.length_take, hkey]; rfl
  have hdrop : (key.drop 16).length = 16 := by rw [List.length_drop, hkey]
  have hhalves : Bytes.wordsLE key
      = Bytes.wordsLE (key.take 16) ++ Bytes.wordsLE (key.drop 16) := by
    rw [← Bytes.wordsLE_append (by rw [htake]), List.take_append_drop]
  -- the words that are not constants are named, so that none of them is computed
  obtain ⟨lower, hlower⟩ : ∃ ws, ws = Bytes.wordsLE (key.take 16) := ⟨_, rfl⟩
  obtain ⟨upper, hupper⟩ : ∃ ws, ws = Bytes.wordsLE (key.drop 16) := ⟨_, rfl⟩
  obtain ⟨middle, hmiddle⟩ : ∃ ws, ws = Bytes.wordsLE nonce := ⟨_, rfl⟩
  have hlower' : lower.length = 4 := by rw [hlower, Bytes.length_wordsLE, htake]
  have hupper' : upper.length = 4 := by rw [hupper, Bytes.length_wordsLE, hdrop]
  have hmiddle' : middle.length = 2 := by rw [hmiddle, Bytes.length_wordsLE, hnonce]; rfl
  unfold expanded input
  -- each part but the last is a whole number of words
  rw [Bytes.wordsLE_append (by simp), Bytes.wordsLE_append (by simp [htake]),
    Bytes.wordsLE_append (by simp), Bytes.wordsLE_append (by simp [hnonce, nonceSize]),
    Bytes.wordsLE_append (by simp), Bytes.wordsLE_append (by simp),
    Bytes.wordsLE_append (by simp [hdrop]), Bytes.wordsLE_ofNatLE_eight, hhalves, ← hlower,
    ← hupper, ← hmiddle]
  -- both sides list the same sixteen words
  match lower, upper, middle with
  | [_, _, _, _], [_, _, _, _], [_, _] => rfl

theorem grid_input (hkey : key.length = 32) (hnonce : nonce.length = nonceSize) (n : Nat) :
    (input key nonce (UInt64.ofNat n)).grid = Grid.ofBytes (expanded key nonce n) := by
  have hlen : (expanded key nonce n).length = 64 := by simp [expanded, hkey, hnonce, nonceSize]
  funext i j
  have hi := i.isLt
  have hj := j.isLt
  rw [Matrix.grid, ← wordsLE_expanded hkey hnonce, List.getD_eq_getElem?_getD,
    Bytes.getElem?_wordsLE, if_pos (by omega)]
  rfl

/-- **A block of key stream is the hash of key, nonce and number.** -/
theorem block_eq (hkey : key.length = 32) (hnonce : nonce.length = nonceSize) (n : Nat) :
    block key nonce n = hashed (expanded key nonce n) := by
  rw [block, flatMap_ofWordLE, grid_doubleRounds, grid_input hkey hnonce]
  rfl

example : (block (0x80 :: Bytes.zeros 31) (Bytes.zeros 8) 0).take 16 =
    [0xe3, 0xbe, 0x8f, 0xdd, 0x8b, 0xec, 0xa2, 0xe3, 0xea, 0x8e, 0xf9, 0x47, 0x5b, 0x29, 0xa6,
      0xe7] := by
  decide +kernel

theorem getD_keystream (hkey : key.length = 32) (hnonce : nonce.length = nonceSize)
    {place len k : Nat} (hk : k < len) :
    (keystream key nonce place len).getD k 0 = mask key nonce (place + k) := by
  rw [List.getD_eq_getElem?_getD, getElem?_keystream, if_pos hk, block_eq hkey hnonce, mask,
    List.getD_eq_getElem?_getD]

end

end Salsa20

namespace StreamEncryptor

variable {e : StreamEncryptor} {key nonce : Bytes}

/-- Each byte is combined with the byte of the key stream at its place. -/
theorem getD_apply (hkey : e.key.length = 32) (hnonce : e.nonce.length = Salsa20.nonceSize)
    {data : Bytes} {k : Nat} (hk : k < data.length) :
    (e.apply data).1.getD k 0
      = data.getD k 0 ^^^ Salsa20.mask e.key e.nonce (e.position + k) := by
  have hstream : k < (Salsa20.keystream e.key e.nonce e.position data.length).length := by
    rw [Salsa20.length_keystream]
    exact hk
  -- byte by byte on both sides, since neither is longer than the data
  rw [← Salsa20.getD_keystream hkey hnonce hk, apply, Bytes.xor, List.getD_eq_getElem?_getD,
    List.getD_eq_getElem?_getD, List.getD_eq_getElem?_getD, List.getElem?_zipWith,
    List.getElem?_eq_getElem hk, List.getElem?_eq_getElem hstream]
  rfl

/-! ## Pieces

Two ways lead to the place of a piece: to go on, or to start anew and move there. What an
encryptor does depends on key, nonce and place only, so both are the same encryptor. -/

/-- How an encryptor comes to the place of a piece. -/
inductive Approach where
  /-- It is the one that took the piece in front. -/
  | running
  /-- It is a new one, moved there. -/
  | fresh
deriving DecidableEq

/-- A piece of a content, and which encryptor takes it. -/
structure Piece where
  approach : Approach
  data : Bytes

/-- The content that pieces make up. -/
def content (pieces : List Piece) : Bytes := pieces.flatMap (·.data)

@[simp] theorem content_cons (piece : Piece) (rest : List Piece) :
    content (piece :: rest) = piece.data ++ content rest := List.flatMap_cons

/-- The encryptor for the next piece. -/
def next (e : StreamEncryptor) (place : Nat) : Approach → Except CryptoError StreamEncryptor
  | .running => .ok e
  | .fresh => (start e.key e.nonce e.seqnum).map (·.seek place)

/-- Encrypts pieces that begin at a place. The answer is what became of each, and where its
encryptor then stood. -/
def encryptPieces (e : StreamEncryptor) (place : Nat) :
    List Piece → Except CryptoError (List (Bytes × Nat))
  | [] => .ok []
  | piece :: rest => do
    let e ← e.next place piece.approach
    let (ciphertext, e) := e.apply piece.data
    let others ← e.encryptPieces (place + piece.data.length) rest
    return (ciphertext, e.position) :: others

/-- What becomes of pieces by their places alone. -/
def placed (key nonce : Bytes) (place : Nat) : List Piece → List (Bytes × Nat)
  | [] => []
  | piece :: rest =>
    (piece.data.xor (Salsa20.keystream key nonce place piece.data.length),
      place + piece.data.length) :: placed key nonce (place + piece.data.length) rest

/-- Whoever stands at the place of the next piece, or is moved there, is the same encryptor. -/
theorem next_eq (hnonce : e.nonce.length = Salsa20.nonceSize) (approach : Approach) :
    e.next e.position approach = .ok e := by
  cases approach with
  | running => rfl
  | fresh =>
    rw [next, start, if_pos hnonce]
    rfl

/-- **Which encryptor takes a piece makes no difference.** -/
theorem encryptPieces_eq (hnonce : e.nonce.length = Salsa20.nonceSize) (pieces : List Piece) :
    e.encryptPieces e.position pieces = .ok (placed e.key e.nonce e.position pieces) := by
  induction pieces generalizing e with
  | nil => rfl
  | cons piece rest ih =>
    -- by induction on the pieces; the encryptor in the hypothesis is the one that took this piece
    have hrest := ih (e := (e.apply piece.data).2) hnonce
    have hposition : (e.apply piece.data).2.position = e.position + piece.data.length := rfl
    rw [hposition] at hrest
    simp only [encryptPieces, next_eq hnonce, bind, Except.bind, hrest]
    rfl

theorem flatten_placed (place : Nat) (pieces : List Piece) :
    ((placed key nonce place pieces).map (·.1)).flatten
      = Bytes.xor (content pieces)
          (Salsa20.keystream key nonce place (content pieces).length) := by
  induction pieces generalizing place with
  | nil => rfl
  | cons piece rest ih =>
    rw [placed, List.map_cons, List.flatten_cons, ih, content_cons, List.length_append,
      ← Salsa20.keystream_append, Bytes.xor_append (by simp)]

/-- Behind each piece lies what the pieces up to it hold. -/
theorem positions_placed (place : Nat) (pieces : List Piece) :
    (placed key nonce place pieces).map (·.2)
      = (List.range pieces.length).map fun i => place + (content (pieces.take (i + 1))).length := by
  induction pieces generalizing place with
  | nil => rfl
  | cons piece rest ih =>
    rw [placed, List.map_cons, ih, List.length_cons, List.range_succ_eq_map, List.map_cons,
      List.map_map]
    simp [Function.comp_def, content, Nat.add_assoc]

theorem lengths_placed (place : Nat) (pieces : List Piece) :
    (placed key nonce place pieces).map (·.1.length) = pieces.map (·.data.length) := by
  induction pieces generalizing place with
  | nil => rfl
  | cons piece rest ih => simp [placed, ih]

/-! ## Whole chunks

A chunk of the other kind is a nonce and the encrypted bytes behind it. As encrypting twice gives
back what it was, every byte string that holds a nonce opens to something. -/

/-- What is long enough to begin with a nonce is a chunk. -/
theorem openChunk_eq {chunk : Bytes} (h : Salsa20.nonceSize ≤ chunk.length) :
    ∃ plain, openChunk key chunk = .ok plain ∧
      chunk = packed key (chunk.take Salsa20.nonceSize) plain := by
  obtain ⟨nonce, hnonce⟩ : ∃ nonce, nonce = chunk.take Salsa20.nonceSize := ⟨_, rfl⟩
  obtain ⟨data, hdata⟩ : ∃ data, data = chunk.drop Salsa20.nonceSize := ⟨_, rfl⟩
  have hlen : nonce.length = Salsa20.nonceSize := by
    rw [hnonce, List.length_take, Nat.min_eq_left h]
  have hchunk : chunk = nonce ++ data := by rw [hnonce, hdata, List.take_append_drop]
  -- what the data opens to, encrypted with the same nonce, is the data
  have hback := Bytes.xor_xor_cancel (a := data)
    (k := Salsa20.keystream key nonce 0 data.length) (by simp)
  have hpacked : chunk
      = packed key nonce (Bytes.xor data (Salsa20.keystream key nonce 0 data.length)) := by
    rw [packed, Bytes.length_xor, Salsa20.length_keystream, Nat.min_self, hback, hchunk]
  rw [← hnonce]
  exact ⟨_, (congrArg (openChunk key) hpacked).trans (openChunk_packed hlen), hpacked⟩

/-- **A content is encrypted alike in whatever pieces it comes,** and whichever of them a new
encryptor takes that is moved to their place. Put together, what became of the pieces is what
becomes of the content when it is encrypted at once, which is each byte combined with the byte of
the key stream at its place. Behind each piece the encryptor stands where the piece ends. With the
nonce in front, all of it opens to the content; and of other byte strings those that are shorter
than a nonce are refused, and no others. -/
theorem pieces_encrypt_alike (hkey : key.length = 32) (hnonce : nonce.length = 8) (seqnum : Nat)
    (pieces : List Piece) :
    (∃ e outputs, start key nonce seqnum = .ok e ∧ e.encryptPieces 0 pieces = .ok outputs ∧
      (outputs.map (·.1)).flatten = (e.apply (content pieces)).1 ∧
      (∀ k < (content pieces).length, (e.apply (content pieces)).1.getD k 0
        = (content pieces).getD k 0 ^^^ Salsa20.mask key nonce k) ∧
      outputs.map (·.1.length) = pieces.map (·.data.length) ∧
      outputs.map (·.2) =
        (List.range pieces.length).map (fun i => (content (pieces.take (i + 1))).length) ∧
      openChunk key (nonce ++ (outputs.map (·.1)).flatten) = .ok (content pieces)) ∧
    ∀ chunk : Bytes,
      (chunk.length < 8 → openChunk key chunk = .error (.ciphertextSize 8 chunk.length)) ∧
      (8 ≤ chunk.length → ∃ plain, openChunk key chunk = .ok plain ∧
        chunk = packed key (chunk.take 8) plain) := by
  refine ⟨⟨⟨key, nonce, seqnum, 0⟩, placed key nonce 0 pieces, if_pos hnonce,
    encryptPieces_eq hnonce pieces, flatten_placed 0 pieces, ?bytes, lengths_placed 0 pieces, ?ends,
    ?opens⟩, fun chunk => ⟨fun hshort => if_pos hshort, openChunk_eq⟩⟩
  case bytes =>
    intro k hk
    rw [getD_apply hkey hnonce hk, Nat.zero_add]
  case ends =>
    rw [positions_placed]
    simp only [Nat.zero_add]
  case opens =>
    rw [flatten_placed]
    exact openChunk_packed hnonce

/-- Two hundred bytes in four pieces, one of them empty: the second and the third are taken by new
encryptors, and the borders lie inside blocks of the key stream. -/
theorem pieces_encrypt_alike_resumed :
    let key : Bytes := List.replicate 32 0x11
    let nonce : Bytes := List.replicate 8 9
    let plain : Bytes := (List.range 200).map UInt8.ofNat
    let pieces : List Piece := [⟨.running, plain.take 70⟩, ⟨.fresh, []⟩,
      ⟨.fresh, plain.slice 70 20⟩, ⟨.running, plain.drop 90⟩]
    ∃ e outputs, start key nonce 4 = .ok e ∧ e.encryptPieces 0 pieces = .ok outputs ∧
      (outputs.map (·.1)).flatten = (e.apply plain).1 ∧ outputs.map (·.2) = [70, 70, 90, 200] ∧
      openChunk key (nonce ++ (outputs.map (·.1)).flatten) = .ok plain := by
  intro key nonce plain pieces
  have hcontent : content pieces = plain := by decide +kernel
  obtain ⟨⟨e, outputs, hstart, houtputs, hwhole, -, -, hends, hopens⟩, -⟩ :=
    pieces_encrypt_alike (rfl : key.length = 32) (rfl : nonce.length = 8) 4 pieces
  rw [hcontent] at hwhole hopens
  have hplaces : (List.range pieces.length).map (fun i => (content (pieces.take (i + 1))).length)
      = [70, 70, 90, 200] := by decide +kernel
  exact ⟨e, outputs, hstart, houtputs, hwhole, hends.trans hplaces, hopens⟩

end StreamEncryptor

end Vault
