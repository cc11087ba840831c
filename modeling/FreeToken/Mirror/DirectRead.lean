import FreeToken.Lib.Argmin
import Mathlib.Data.List.Sort
import Mathlib.Algebra.BigOperators.Group.List.Basic
import Mathlib.Algebra.Order.BigOperators.Group.List
import Mathlib.Algebra.Order.Group.Nat
import Mathlib.Logic.Function.Basic
import Mathlib.Algebra.GroupWithZero.Nat

/-!
# Direct reads of expert rows

`MirrorExpertPool._read_group`: the extents of one shard that an expert's row needs are widened to
blocks, merged, read one after the other into the scratch buffer, and copied from there into the
row. What `preadv` answers is up to the kernel: `answers i k` bytes to the call `k` for region `i`,
but never more than was asked for or than the file has. Main results:

* `readRegion_spec`: where the calls for one region land, and what they bring.
* `readGroup_raises`: a read raises only on an answer of zero.
* `direct_reads`: otherwise the row gets the bytes of the file; the calls keep to blocks if and only
  if every answer that leaves something of its region does.
-/

namespace FreeToken.Mirror

/-- `_BLK`. -/
def BLK : Nat := 4096

/-- Where a tensor lies in its shard, and where it goes. -/
structure Piece where
  off : Nat
  length : Nat
  bank : String
  dstOff : Nat
  /-- The entries of the row that a scalar is spread over, zero for a tensor. -/
  broadcast : Nat
  length_pos : 0 < length
  broadcast_length : broadcast ≠ 0 → length = 4
deriving DecidableEq

/-- Bytes from the first up to the second. -/
abbrev Extent := Nat × Nat

/-! ## Regions -/

/-- The blocks that hold a piece. -/
def Piece.aligned (p : Piece) : Extent :=
  (p.off / BLK * BLK, (p.off + p.length + BLK - 1) / BLK * BLK)

def Extent.le (a b : Extent) : Prop := a.1 < b.1 ∨ a.1 = b.1 ∧ a.2 ≤ b.2

instance : DecidableRel Extent.le := fun _ _ => inferInstanceAs (Decidable (_ ∨ _))

/-- The loop of `_regions_of`, with the last region so far. -/
def mergeFrom : Extent → List Extent → List Extent
  | last, [] => [last]
  | last, r :: rest =>
    if r.1 ≤ last.2 then mergeFrom (last.1, max last.2 r.2) rest else last :: mergeFrom r rest

/-- `_regions_of`. -/
def regionsOf (pieces : List Piece) : List Extent :=
  match (pieces.map Piece.aligned).insertionSort Extent.le with
  | [] => []
  | r :: rest => mergeFrom r rest

/-- The scratch that a group needs. -/
def scratchNeed (pieces : List Piece) : Nat := ((regionsOf pieces).map fun r => r.2 - r.1).sum

/-- `scratch_bytes`, over the groups of all records. -/
def scratchBytes (groups : List (List Piece)) : Nat := (groups.map scratchNeed).foldl max 0

/-! ## Reading -/

/-- One call of `preadv`: the offset in the file, where in the scratch the bytes go, and how many
are asked for. -/
structure ReadCall where
  offset : Nat
  address : Nat
  length : Nat
deriving DecidableEq

structure ReadState where
  scratch : Nat → UInt8
  reads : List ReadCall

inductive ReadError where
  | shortRead (flat : Nat)
  | noRegion
deriving DecidableEq

def ReadError.message : ReadError → String
  | shortRead flat => "short O_DIRECT read for expert " ++ toString flat
  | noRegion => ""

/-- A shard file, the scratch of the pool, and what the kernel answers. -/
structure Reader where
  file : Nat → UInt8
  size : Nat
  scratchSize : Nat
  answers : Nat → Nat → Nat

namespace Reader

variable (d : Reader)

/-- `-(-size // _BLK) * _BLK`. -/
def roundedSize : Nat := (d.size + BLK - 1) / BLK * BLK

/-- The bytes that a region wants. -/
def want (r : Extent) : Nat := min r.2 d.roundedSize - r.1

/-- The `while` loop for region `i`, from call `call` on. A slice of the view ends with it. -/
def readRegion (flat i start cursor want got call : Nat) (st : ReadState) :
    Except ReadError ReadState :=
  if got < want then
    let low := min (cursor + got) d.scratchSize
    let length := min (cursor + want) d.scratchSize - low
    let chunk := min (d.answers i call) (min length (d.size - (start + got)))
    let reads := st.reads ++ [⟨start + got, low, length⟩]
    if chunk = 0 then
      if d.size ≤ start + got then .ok { st with reads := reads } else .error (.shortRead flat)
    else
      readRegion flat i start cursor want (got + chunk) (call + 1)
        { scratch := fun x =>
            if low ≤ x ∧ x < low + chunk then d.file (start + got + (x - low)) else st.scratch x
          reads := reads }
  else .ok st
termination_by want - got
decreasing_by
  exact Nat.sub_lt_sub_left ‹got < want› (Nat.lt_add_of_pos_right (Nat.pos_of_ne_zero ‹¬ _ = 0›))

/-- The loop over the regions, with where in the scratch each begins. -/
def readRegions (flat : Nat) : Nat → Nat → List Extent → ReadState →
    Except ReadError (List Nat × ReadState)
  | _, _, [], st => .ok ([], st)
  | i, cursor, r :: rest, st =>
    match d.readRegion flat i r.1 cursor (d.want r) 0 0 st with
    | .error e => .error e
    | .ok st =>
      match readRegions flat (i + 1) (cursor + (r.2 - r.1)) rest st with
      | .error e => .error e
      | .ok (cursors, st) => .ok (cursor :: cursors, st)

end Reader

/-! ## Copying -/

/-- The bytes of each bank's rows. -/
abbrev BankBytes := String → Nat → Nat → UInt8

/-- The copy of a piece's bytes into `row`; `half` converts a scalar's four bytes to two. -/
def Piece.put (half : List UInt8 → UInt8 × UInt8) (row : Nat) (p : Piece) (raw : List UInt8)
    (banks : BankBytes) : BankBytes := fun bank r x =>
  if bank = p.bank ∧ r = row then
    if p.broadcast ≠ 0 then
      let begin := p.dstOff / 2
      if begin ≤ x / 2 ∧ x / 2 < begin + p.broadcast then
        if x % 2 = 0 then (half raw).1 else (half raw).2
      else banks bank r x
    else if p.dstOff ≤ x ∧ x < p.dstOff + p.length then raw.getD (x - p.dstOff) 0
    else banks bank r x
  else banks bank r x

/-- A slice of the scratch. -/
def slice (size : Nat) (scratch : Nat → UInt8) (low high : Nat) : List UInt8 :=
  (List.range (min high size - min low size)).map fun k : Nat => scratch (min low size + k)

/-- A piece is found in the first region that holds it. -/
def scatter (half : List UInt8 → UInt8 × UInt8) (row size : Nat) (regions : List (Extent × Nat))
    (scratch : Nat → UInt8) : List Piece → BankBytes → Except ReadError BankBytes
  | [], banks => .ok banks
  | p :: pieces, banks =>
    match regions.find? fun r => r.1.1 ≤ p.off ∧ p.off + p.length ≤ r.1.2 with
    | none => .error .noRegion
    | some (region, cursor) =>
      let start := cursor + p.off - region.1
      scatter half row size regions scratch pieces
        (p.put half row (slice size scratch start (start + p.length)) banks)

/-- `_read_group`, with the calls it made. -/
def readGroup (d : Reader) (half : List UInt8 → UInt8 × UInt8) (flat row : Nat)
    (pieces : List Piece) (scratch : Nat → UInt8) (banks : BankBytes) :
    Except ReadError (BankBytes × List ReadCall) :=
  match d.readRegions flat 0 0 (regionsOf pieces) ⟨scratch, []⟩ with
  | .error e => .error e
  | .ok (cursors, st) =>
    match scatter half row d.scratchSize ((regionsOf pieces).zip cursors) st.scratch pieces banks with
    | .error e => .error e
    | .ok banks => .ok (banks, st.reads)

/-! ## What it is for -/

/-- The bytes of the file that a piece names. -/
def Reader.bytesOf (d : Reader) (p : Piece) : List UInt8 :=
  (List.range p.length).map fun k : Nat => d.file (p.off + k)

/-- Each piece copied straight from the file. -/
def copied (d : Reader) (half : List UInt8 → UInt8 × UInt8) (row : Nat) (pieces : List Piece)
    (banks : BankBytes) : BankBytes :=
  pieces.foldl (fun banks p => p.put half row (d.bytesOf p) banks) banks

def ReadCall.OnBlocks (c : ReadCall) : Prop :=
  BLK ∣ c.offset ∧ BLK ∣ c.address ∧ BLK ∣ c.length

/-- The bytes of region `i` that are there after `k` calls. -/
def Reader.landed (d : Reader) (i limit k : Nat) : Nat :=
  min ((List.range k).map (d.answers i)).sum limit

/-- As long as something of a region is wanted, whole blocks of it have come. -/
def Reader.LandsOnBlocks (d : Reader) (regions : List Extent) : Prop :=
  ∀ i r, regions[i]? = some r → ∀ k,
    d.landed i (d.size - r.1) k < d.want r → BLK ∣ d.landed i (d.size - r.1) k

/-! ## Regions hold their pieces -/

theorem Piece.aligned_spec (p : Piece) :
    BLK ∣ p.aligned.1 ∧ BLK ∣ p.aligned.2 ∧ p.aligned.1 ≤ p.off ∧
      p.off + p.length ≤ p.aligned.2 := by
  have hdiv := Nat.div_add_mod (p.off + p.length + BLK - 1) BLK
  have hmod := Nat.mod_lt (p.off + p.length + BLK - 1) (by decide : 0 < BLK)
  refine ⟨Nat.dvd_mul_left _ _, Nat.dvd_mul_left _ _, Nat.div_mul_le_self _ _, ?_⟩
  unfold aligned BLK at *
  simp only
  omega

/-- A region of whole blocks, of which the file has some. -/
structure GoodRegion (size : Nat) (r : Extent) : Prop where
  low : BLK ∣ r.1
  high : BLK ∣ r.2
  lt : r.1 < r.2
  inFile : r.1 < size
  fits : r.2 ≤ (size + BLK - 1) / BLK * BLK

theorem Piece.aligned_good {p : Piece} {size : Nat} (h : p.off + p.length ≤ size) :
    GoodRegion size p.aligned := by
  obtain ⟨hlow, hhigh, hbegin, hend⟩ := p.aligned_spec
  have hpos := p.length_pos
  refine ⟨hlow, hhigh, by omega, by omega, ?_⟩
  exact Nat.mul_le_mul_right _ (Nat.div_le_div_right (by omega))

theorem mergeFrom_spec {size : Nat} (rest : List Extent) : ∀ last,
    (last :: rest).Pairwise Extent.le → (∀ r ∈ last :: rest, GoodRegion size r) →
    (∀ r ∈ mergeFrom last rest, GoodRegion size r) ∧
      ∀ r ∈ last :: rest, ∃ q ∈ mergeFrom last rest, q.1 ≤ r.1 ∧ r.2 ≤ q.2 := by
  induction rest with
  | nil =>
    intro last _ hgood
    exact ⟨hgood, fun r hr => ⟨r, hr, Nat.le_refl _, Nat.le_refl _⟩⟩
  | cons r rest ih =>
    intro last hsorted hgood
    obtain ⟨hlast, hrest⟩ := List.pairwise_cons.mp hsorted
    have hl := hgood last List.mem_cons_self
    have hr := hgood r (List.mem_cons_of_mem _ List.mem_cons_self)
    have hle : last.1 ≤ r.1 := by
      have := hlast r List.mem_cons_self
      unfold Extent.le at this
      omega
    unfold mergeFrom
    split
    · -- the two touch, and become one that reaches as far as either
      have hmax : max last.2 r.2 = last.2 ∨ max last.2 r.2 = r.2 := max_choice _ _
      have hmerged : GoodRegion size (last.1, max last.2 r.2) := by
        refine ⟨hl.low, ?_, ?_, hl.inFile, max_le hl.fits hr.fits⟩
        · rcases hmax with h | h <;> simp only [h]
          · exact hl.high
          · exact hr.high
        · exact lt_of_lt_of_le hl.lt (le_max_left _ _)
      have hpairwise : ((last.1, max last.2 r.2) :: rest).Pairwise Extent.le := by
        refine List.pairwise_cons.mpr ⟨fun q hq => ?_, (List.pairwise_cons.mp hrest).2⟩
        have h1 := hlast q (List.mem_cons_of_mem _ hq)
        have h2 := (List.pairwise_cons.mp hrest).1 q hq
        unfold Extent.le at *
        simp only
        omega
      obtain ⟨hall, hcover⟩ := ih _ hpairwise (List.forall_mem_cons.mpr
        ⟨hmerged, fun q hq => hgood q (List.mem_cons_of_mem _ (List.mem_cons_of_mem _ hq))⟩)
      refine ⟨hall, fun q hq => ?_⟩
      obtain ⟨m, hm, hm1, hm2⟩ := hcover _ List.mem_cons_self
      simp only at hm1 hm2
      rcases List.mem_cons.mp hq with rfl | hq
      · exact ⟨m, hm, hm1, by omega⟩
      · rcases List.mem_cons.mp hq with rfl | hq
        · exact ⟨m, hm, by omega, by omega⟩
        · exact hcover q (List.mem_cons_of_mem _ hq)
    · obtain ⟨hall, hcover⟩ := ih r hrest fun q hq => hgood q (List.mem_cons_of_mem _ hq)
      refine ⟨List.forall_mem_cons.mpr ⟨hl, hall⟩, fun q hq => ?_⟩
      rcases List.mem_cons.mp hq with rfl | hq
      · exact ⟨q, List.mem_cons_self, Nat.le_refl _, Nat.le_refl _⟩
      · obtain ⟨m, hm, hbounds⟩ := hcover q hq
        exact ⟨m, List.mem_cons_of_mem _ hm, hbounds⟩

instance : Std.Total Extent.le := ⟨fun a b => by unfold Extent.le; omega⟩

instance : IsTrans Extent Extent.le := ⟨fun a b c h h' => by unfold Extent.le at *; omega⟩

/-- **The regions are whole blocks, and each piece lies within one.** -/
theorem regionsOf_spec {size : Nat} {pieces : List Piece}
    (h : ∀ p ∈ pieces, p.off + p.length ≤ size) :
    (∀ r ∈ regionsOf pieces, GoodRegion size r) ∧
      ∀ p ∈ pieces, ∃ r ∈ regionsOf pieces, r.1 ≤ p.off ∧ p.off + p.length ≤ r.2 := by
  have hsorted := List.pairwise_insertionSort Extent.le (pieces.map Piece.aligned)
  have hmem : ∀ r, r ∈ (pieces.map Piece.aligned).insertionSort Extent.le ↔
      r ∈ pieces.map Piece.aligned := fun r => List.mem_insertionSort Extent.le
  have hgood : ∀ r ∈ (pieces.map Piece.aligned).insertionSort Extent.le, GoodRegion size r := by
    intro r hr
    obtain ⟨p, hp, rfl⟩ := List.mem_map.mp ((hmem r).mp hr)
    exact Piece.aligned_good (h p hp)
  unfold regionsOf
  cases hcons : (pieces.map Piece.aligned).insertionSort Extent.le with
  | nil =>
    refine ⟨by simp, fun p hp => ?_⟩
    have hin := (hmem p.aligned).mpr (List.mem_map_of_mem hp)
    rw [hcons] at hin
    cases hin
  | cons r rest =>
    rw [hcons] at hsorted hmem hgood
    obtain ⟨hall, hcover⟩ := mergeFrom_spec rest r hsorted hgood
    refine ⟨hall, fun p hp => ?_⟩
    obtain ⟨q, hq, hlow, hhigh⟩ := hcover _ ((hmem p.aligned).mpr (List.mem_map_of_mem hp))
    obtain ⟨-, -, hbegin, hend⟩ := p.aligned_spec
    exact ⟨q, hq, by omega, by omega⟩

/-! ## What the calls bring -/

namespace Reader

variable {d : Reader} {flat i : Nat}

theorem landed_succ (i limit k : Nat) :
    d.landed i limit (k + 1) = min (d.landed i limit k + d.answers i k) limit := by
  unfold landed
  rw [List.range_succ, List.map_append, List.sum_append, List.map_singleton, List.sum_singleton]
  omega

theorem landed_mono {i limit k m : Nat} (h : k ≤ m) : d.landed i limit k ≤ d.landed i limit m := by
  induction m, h using Nat.le_induction with
  | base => exact Nat.le_refl _
  | succ m _ ih =>
    rw [landed_succ]
    have hle : d.landed i limit m ≤ limit := min_le_right _ _
    omega

theorem landed_le (i limit k : Nat) : d.landed i limit k ≤ limit := min_le_right _ _

/-- The call for what is still wanted after `k` calls. -/
def callAt (d : Reader) (i start cursor want k : Nat) : ReadCall :=
  ⟨start + d.landed i (d.size - start) k, cursor + d.landed i (d.size - start) k,
    want - d.landed i (d.size - start) k⟩

/-- What reading a region leaves, from call `call` on, when `got` bytes are there. -/
structure RegionRead (d : Reader) (i start cursor want got call : Nat) (st st' : ReadState) :
    Prop where
  scratch : ∀ x, st'.scratch x =
    if cursor + got ≤ x ∧ x < cursor + min want (d.size - start) then d.file (start + (x - cursor))
    else st.scratch x
  reads : ∃ new, st'.reads = st.reads ++ new ∧
    (∀ c ∈ new, ∃ k, d.landed i (d.size - start) k < want ∧ c = d.callAt i start cursor want k) ∧
    ∀ k, call ≤ k → d.landed i (d.size - start) k < want → d.callAt i start cursor want k ∈ new

/-- With all that is wanted there, no call follows. -/
theorem RegionRead.refl {start cursor want got call : Nat} (st : ReadState)
    (hgot : got = min (d.landed i (d.size - start) call) want) (hwant : want ≤ got) :
    RegionRead d i start cursor want got call st st := by
  refine ⟨fun x => ?_, [], by simp, by simp, fun k hk hlt => ?_⟩
  · rw [if_neg (by omega)]
  · have hmono : d.landed i (d.size - start) call ≤ d.landed i (d.size - start) k := landed_mono hk
    omega

/-- How much call `call` brings. -/
def chunkAt (d : Reader) (i start want got call : Nat) : Nat :=
  min (d.answers i call) (min (want - got) (d.size - (start + got)))

/-- A round of the loop for a region that fits the scratch. -/
theorem readRegion_round {start cursor want got call : Nat} {st : ReadState}
    (hfits : cursor + want ≤ d.scratchSize) (hlt : got < want) :
    d.readRegion flat i start cursor want got call st =
      if d.chunkAt i start want got call = 0 then
        if d.size ≤ start + got then
          .ok { st with reads := st.reads ++ [⟨start + got, cursor + got, want - got⟩] }
        else .error (.shortRead flat)
      else
        d.readRegion flat i start cursor want (got + d.chunkAt i start want got call) (call + 1)
          { scratch := fun x =>
              if cursor + got ≤ x ∧ x < cursor + got + d.chunkAt i start want got call then
                d.file (start + got + (x - (cursor + got)))
              else st.scratch x
            reads := st.reads ++ [⟨start + got, cursor + got, want - got⟩] } := by
  have hlow : min (cursor + got) d.scratchSize = cursor + got :=
    Nat.min_eq_left (Nat.le_trans (Nat.add_le_add_left hlt.le cursor) hfits)
  have hhigh : min (cursor + want) d.scratchSize - (cursor + got) = want - got := by
    rw [Nat.min_eq_left hfits, Nat.add_sub_add_left]
  rw [readRegion, if_pos hlt]
  simp only [hlow, hhigh]
  rfl

/-- As long as bytes are wanted, all that has landed counts. -/
theorem landed_of_lt {start want got call : Nat}
    (hgot : got = min (d.landed i (d.size - start) call) want) (hlt : got < want) :
    d.landed i (d.size - start) call = got := by
  omega

theorem chunkAt_landed {start want got call : Nat}
    (hland : d.landed i (d.size - start) call = got) (hlt : got < want) :
    got + d.chunkAt i start want got call = min (d.landed i (d.size - start) (call + 1)) want := by
  have hle : got ≤ d.size - start := hland ▸ landed_le i (d.size - start) call
  rw [landed_succ, hland, chunkAt, ← Nat.sub_sub]
  generalize d.size - start = limit at hle
  generalize d.answers i call = answer
  omega

theorem chunkAt_reach {start want got call : Nat}
    (hland : d.landed i (d.size - start) call = got) (hlt : got < want) :
    got + d.chunkAt i start want got call ≤ min want (d.size - start) := by
  rw [chunkAt_landed hland hlt, min_comm want]
  exact min_le_min_right want (landed_le i (d.size - start) (call + 1))

/-- A call that brings something leaves less to want. -/
theorem wanted_decreases {want got chunk n : Nat} (hn : want - got ≤ n + 1) (hlt : got < want)
    (hchunk : chunk ≠ 0) : want - (got + chunk) ≤ n := by
  omega

/-- **The calls for a region bring its bytes**, as far as the file has them. -/
theorem readRegion_spec (hpos : ∀ k, 0 < d.answers i k) {start cursor want : Nat}
    (hfits : cursor + want ≤ d.scratchSize) : ∀ got call st,
    got = min (d.landed i (d.size - start) call) want →
    ∃ st', d.readRegion flat i start cursor want got call st = .ok st' ∧
      RegionRead d i start cursor want got call st st' := by
  suffices h : ∀ n got call st, want - got ≤ n →
      got = min (d.landed i (d.size - start) call) want →
      ∃ st', d.readRegion flat i start cursor want got call st = .ok st' ∧
        RegionRead d i start cursor want got call st st' from
    fun got call st => h _ got call st (Nat.le_refl _)
  intro n
  induction n with
  | zero =>
    intro got call st hn hgot
    have hle : want ≤ got := Nat.sub_eq_zero_iff_le.mp (Nat.le_zero.mp hn)
    rw [readRegion, if_neg (Nat.not_lt.mpr hle)]
    exact ⟨st, rfl, .refl st hgot hle⟩
  | succ n ih =>
    intro got call st hn hgot
    by_cases hlt : got < want
    · have hland := landed_of_lt hgot hlt
      have hnext := chunkAt_landed hland hlt
      have hreach := chunkAt_reach hland hlt
      have hcall : (⟨start + got, cursor + got, want - got⟩ : ReadCall) =
          d.callAt i start cursor want call := by
        unfold callAt
        rw [hland]
      rw [readRegion_round hfits hlt, hcall]
      split
      · -- an answer of zero is the end of the file
        rename_i hzero
        have hsize : d.size - start ≤ got := by
          have hanswer := hpos call
          rw [chunkAt, ← Nat.sub_sub] at hzero
          generalize d.size - start = limit at hzero ⊢
          generalize d.answers i call = answer at hzero hanswer
          omega
        rw [if_pos (by omega)]
        refine ⟨_, rfl, fun x => ?_, [d.callAt i start cursor want call], rfl, ?_, fun k hk _ => ?_⟩
        · have hend : min want (d.size - start) ≤ got := (min_le_right _ _).trans hsize
          rw [if_neg fun h => absurd (h.1.trans_lt h.2)
            (Nat.not_lt.mpr (Nat.add_le_add_left hend cursor))]
        · intro c hc
          exact ⟨call, hland ▸ hlt, List.mem_singleton.mp hc⟩
        · have hmono : d.landed i (d.size - start) call ≤ d.landed i (d.size - start) k :=
            landed_mono hk
          have hle := landed_le (d := d) i (d.size - start) k
          have hsame : d.landed i (d.size - start) k = d.landed i (d.size - start) call :=
            Nat.le_antisymm (hle.trans (hsize.trans hland.ge)) hmono
          rw [List.mem_singleton]
          unfold callAt
          rw [hsame]
      · rename_i hchunk
        generalize d.chunkAt i start want got call = chunk at hnext hreach hchunk ⊢
        obtain ⟨st', hst', hscratch, new, hnew, hcalls, hall⟩ := ih (got + chunk) (call + 1)
          ⟨fun x => if cursor + got ≤ x ∧ x < cursor + got + chunk then
              d.file (start + got + (x - (cursor + got))) else st.scratch x,
            st.reads ++ [d.callAt i start cursor want call]⟩ (wanted_decreases hn hlt hchunk) hnext
        refine ⟨st', hst', fun x => ?_, d.callAt i start cursor want call :: new, ?_, ?_, ?_⟩
        · -- the bytes of this call come first, those of the later ones behind them
          rw [hscratch x]
          generalize min want (d.size - start) = reach at hreach
          simp only
          by_cases hhere : cursor + got ≤ x ∧ x < cursor + got + chunk
          · have hfile : start + got + (x - (cursor + got)) = start + (x - cursor) := by omega
            have hrest : ¬(cursor + (got + chunk) ≤ x ∧ x < cursor + reach) := by omega
            have hwhole : cursor + got ≤ x ∧ x < cursor + reach := by omega
            rw [if_neg hrest, if_pos hhere, if_pos hwhole, hfile]
          · rw [if_neg hhere]
            by_cases hlater : cursor + (got + chunk) ≤ x ∧ x < cursor + reach
            · rw [if_pos hlater, if_pos (by omega)]
            · rw [if_neg hlater, if_neg (by omega)]
        · rw [hnew, List.append_assoc]
          rfl
        · exact List.forall_mem_cons.mpr ⟨⟨call, hland ▸ hlt, rfl⟩, hcalls⟩
        · intro k hk hkw
          rcases Nat.eq_or_lt_of_le hk with rfl | hk
          · exact List.mem_cons_self
          · exact List.mem_cons_of_mem _ (hall k hk hkw)
    · rw [readRegion, if_neg hlt]
      exact ⟨st, rfl, .refl st hgot (Nat.not_lt.mp hlt)⟩

/-- An answer of zero with bytes of the file still wanted. -/
def Starved (d : Reader) (i : Nat) (r : Extent) (k : Nat) : Prop :=
  d.answers i k = 0 ∧ d.landed i (d.size - r.1) k < min (d.want r) (d.size - r.1)

/-- A region is given up only for an answer of zero before the end of the file. -/
theorem readRegion_error {r : Extent} {cursor : Nat} {e : ReadError}
    (hfits : cursor + d.want r ≤ d.scratchSize) : ∀ got call st,
    got = min (d.landed i (d.size - r.1) call) (d.want r) →
    d.readRegion flat i r.1 cursor (d.want r) got call st = .error e → ∃ k, d.Starved i r k := by
  suffices h : ∀ n got call st, d.want r - got ≤ n →
      got = min (d.landed i (d.size - r.1) call) (d.want r) →
      d.readRegion flat i r.1 cursor (d.want r) got call st = .error e → ∃ k, d.Starved i r k from
    fun got call st => h _ got call st (Nat.le_refl _)
  intro n
  induction n with
  | zero =>
    intro got call st hn hgot herr
    have hle : d.want r ≤ got := Nat.sub_eq_zero_iff_le.mp (Nat.le_zero.mp hn)
    rw [readRegion, if_neg (Nat.not_lt.mpr hle)] at herr
    cases herr
  | succ n ih =>
    intro got call st hn hgot herr
    by_cases hlt : got < d.want r
    · have hland := landed_of_lt hgot hlt
      rw [readRegion_round hfits hlt] at herr
      split at herr
      · rename_i hzero
        split at herr
        · cases herr
        · rename_i hmore
          -- bytes are wanted and there, so it was the answer
          rw [chunkAt, ← Nat.sub_sub] at hzero
          refine ⟨call, ?_, ?_⟩ <;> generalize d.want r = want at *
          · omega
          · rw [hland]
            omega
      · rename_i hchunk
        exact ih _ (call + 1) _ (wanted_decreases hn hlt hchunk) (chunkAt_landed hland hlt) herr
    · rw [readRegion, if_neg hlt] at herr
      cases herr

/-! ## All regions -/

/-- Where in the scratch each region begins. -/
def cursorsFrom : Nat → List Extent → List Nat
  | _, [] => []
  | cursor, r :: rest => cursor :: cursorsFrom (cursor + (r.2 - r.1)) rest

/-- The scratch has the bytes of the file, region after region. -/
def LaidOut (d : Reader) (scratch : Nat → UInt8) : Nat → List Extent → Prop
  | _, [] => True
  | cursor, r :: rest =>
    (∀ k, k < min (d.want r) (d.size - r.1) → scratch (cursor + k) = d.file (r.1 + k)) ∧
      LaidOut d scratch (cursor + (r.2 - r.1)) rest

theorem want_eq {r : Extent} (h : GoodRegion d.size r) : d.want r = r.2 - r.1 := by
  unfold want roundedSize
  rw [Nat.min_eq_left h.fits]

/-- A call for one of the regions, within the scratch. -/
def CallFor (d : Reader) (i : Nat) (regions : List Extent) (c : ReadCall) : Prop :=
  ∃ j r cursor k, regions[j]? = some r ∧ BLK ∣ cursor ∧ cursor + d.want r ≤ d.scratchSize ∧
    d.landed (i + j) (d.size - r.1) k < d.want r ∧
    c = d.callAt (i + j) r.1 cursor (d.want r) k

/-- What reading the regions leaves. -/
structure RegionsRead (d : Reader) (i cursor : Nat) (regions : List Extent) (st st' : ReadState) :
    Prop where
  frame : ∀ x < cursor, st'.scratch x = st.scratch x
  laidOut : d.LaidOut st'.scratch cursor regions
  reads : ∃ new, st'.reads = st.reads ++ new ∧ (∀ c ∈ new, d.CallFor i regions c) ∧
    ∀ j r k, regions[j]? = some r → d.landed (i + j) (d.size - r.1) k < d.want r →
      ∃ cursor, d.callAt (i + j) r.1 cursor (d.want r) k ∈ new

theorem readRegions_spec (hpos : ∀ i k, 0 < d.answers i k) (regions : List Extent) :
    ∀ i cursor st, (∀ r ∈ regions, GoodRegion d.size r) → BLK ∣ cursor →
      cursor + (regions.map fun r => r.2 - r.1).sum ≤ d.scratchSize →
      ∃ st', d.readRegions flat i cursor regions st = .ok (cursorsFrom cursor regions, st') ∧
        RegionsRead d i cursor regions st st' := by
  induction regions with
  | nil =>
    intro i cursor st _ _ _
    exact ⟨st, rfl, fun _ _ => rfl, trivial, [], by simp, by simp, by simp⟩
  | cons r rest ih =>
    intro i cursor st hgood hcursor hfits
    obtain ⟨hr, hrest⟩ := List.forall_mem_cons.mp hgood
    have hwant := want_eq hr
    rw [List.map_cons, List.sum_cons] at hfits
    have hinside : cursor + d.want r ≤ d.scratchSize := by omega
    have hstart : 0 = min (d.landed i (d.size - r.1) 0) (d.want r) := by simp [landed]
    obtain ⟨st1, hst1, hscratch1, new1, hnew1, hcalls1, hall1⟩ :=
      @readRegion_spec d flat i (hpos i) r.1 cursor (d.want r) hinside 0 0 st hstart
    have hnext : BLK ∣ cursor + (r.2 - r.1) := Nat.dvd_add hcursor (Nat.dvd_sub hr.high hr.low)
    obtain ⟨st2, hst2, hframe2, hlaid2, new2, hnew2, hcalls2, hall2⟩ :=
      ih (i + 1) (cursor + (r.2 - r.1)) st1 hrest hnext (by omega)
    refine ⟨st2, ?_, fun x hx => ?_, ⟨fun k hk => ?_, hlaid2⟩, new1 ++ new2, ?_, ?_, ?_⟩
    · unfold readRegions
      rw [hst1]
      simp only
      rw [hst2]
      rfl
    · rw [hframe2 x (by omega), hscratch1 x, if_neg (by omega)]
    · -- the regions behind are read into other parts of the scratch
      rw [hframe2 _ (by omega), hscratch1, if_pos (by omega), Nat.add_sub_cancel_left]
    · rw [hnew2, hnew1, List.append_assoc]
    · intro c hc
      rcases List.mem_append.mp hc with hc | hc
      · obtain ⟨k, hk, hcall⟩ := hcalls1 c hc
        exact ⟨0, r, cursor, k, rfl, hcursor, hinside, hk, hcall⟩
      · obtain ⟨j, q, cur, k, hq, hcall⟩ := hcalls2 c hc
        rw [Nat.add_assoc, Nat.add_comm 1 j] at hcall
        exact ⟨j + 1, q, cur, k, hq, hcall⟩
    · intro j q k hq hk
      rcases j with _ | j
      · obtain rfl : r = q := by simpa using hq
        exact ⟨cursor, List.mem_append_left new2 (hall1 k (Nat.zero_le k) hk)⟩
      · rw [List.getElem?_cons_succ] at hq
        have hindex : i + (j + 1) = i + 1 + j := by omega
        rw [hindex] at hk ⊢
        obtain ⟨cur, hcur⟩ := hall2 j q k hq hk
        exact ⟨cur, List.mem_append_right new1 hcur⟩

theorem readRegions_error {e : ReadError} (regions : List Extent) :
    ∀ i cursor st, (∀ r ∈ regions, GoodRegion d.size r) →
      cursor + (regions.map fun r => r.2 - r.1).sum ≤ d.scratchSize →
      d.readRegions flat i cursor regions st = .error e →
      ∃ j r k, regions[j]? = some r ∧ d.Starved (i + j) r k := by
  induction regions with
  | nil =>
    intro i cursor st _ _ herr
    cases herr
  | cons r rest ih =>
    intro i cursor st hgood hfits herr
    obtain ⟨hr, hrest⟩ := List.forall_mem_cons.mp hgood
    have hwant := want_eq hr
    rw [List.map_cons, List.sum_cons] at hfits
    unfold readRegions at herr
    split at herr
    · rename_i herror
      have hinside : cursor + d.want r ≤ d.scratchSize := by omega
      obtain ⟨k, hk⟩ := readRegion_error hinside 0 0 st (by simp [landed]) herror
      exact ⟨0, r, k, rfl, hk⟩
    · split at herr
      · rename_i herror
        cases herr
        obtain ⟨j, q, k, hq, hk⟩ := ih (i + 1) (cursor + (r.2 - r.1)) _ hrest (by omega) herror
        rw [Nat.add_assoc, Nat.add_comm 1 j] at hk
        exact ⟨j + 1, q, k, hq, hk⟩
      · cases herr

theorem readRegions_cursors (regions : List Extent) :
    ∀ {cursors : List Nat} {i cursor : Nat} {st st' : ReadState},
      d.readRegions flat i cursor regions st = .ok (cursors, st') →
      cursors = cursorsFrom cursor regions := by
  induction regions with
  | nil =>
    intro cursors i cursor st st' h
    cases h
    rfl
  | cons r rest ih =>
    intro cursors i cursor st st' h
    unfold readRegions at h
    split at h
    · cases h
    · split at h
      · cases h
      · rename_i hrest
        cases h
        rw [ih hrest]
        rfl

/-- What is in the scratch of a region, by its cursor. -/
theorem LaidOut.of_mem {scratch : Nat → UInt8} {regions : List Extent} : ∀ {cursor : Nat},
    d.LaidOut scratch cursor regions → ∀ {r : Extent} {c : Nat},
      (r, c) ∈ regions.zip (cursorsFrom cursor regions) →
      ∀ k, k < min (d.want r) (d.size - r.1) → scratch (c + k) = d.file (r.1 + k) := by
  induction regions with
  | nil =>
    intro cursor _ r c hmem
    cases hmem
  | cons q rest ih =>
    intro cursor h r c hmem
    rcases List.mem_cons.mp hmem with heq | hmem
    · obtain ⟨rfl, rfl⟩ := Prod.mk.inj heq
      exact h.1
    · exact ih h.2 hmem

theorem mem_zip_cursors {regions : List Extent} : ∀ {cursor : Nat} {r : Extent} {c : Nat},
    (r, c) ∈ regions.zip (cursorsFrom cursor regions) →
      r ∈ regions ∧ c + (r.2 - r.1) ≤ cursor + (regions.map fun r => r.2 - r.1).sum := by
  induction regions with
  | nil =>
    intro cursor r c hmem
    cases hmem
  | cons q rest ih =>
    intro cursor r c hmem
    rw [List.map_cons, List.sum_cons]
    rcases List.mem_cons.mp hmem with heq | hmem
    · obtain ⟨rfl, rfl⟩ := Prod.mk.inj heq
      exact ⟨List.mem_cons_self, by omega⟩
    · obtain ⟨hr, hle⟩ := ih hmem
      exact ⟨List.mem_cons_of_mem _ hr, by omega⟩

theorem exists_cursor {regions : List Extent} : ∀ {cursor : Nat} {r : Extent}, r ∈ regions →
    ∃ c, (r, c) ∈ regions.zip (cursorsFrom cursor regions) := by
  induction regions with
  | nil =>
    intro cursor r hr
    cases hr
  | cons q rest ih =>
    intro cursor r hr
    rcases List.mem_cons.mp hr with rfl | hr
    · exact ⟨cursor, List.mem_cons_self⟩
    · obtain ⟨c, hc⟩ := @ih (cursor + (q.2 - q.1)) r hr
      exact ⟨c, List.mem_cons_of_mem _ hc⟩

end Reader

/-! ## Copying from the scratch -/

section Group

variable {d : Reader} {half : List UInt8 → UInt8 × UInt8} {flat row : Nat}

theorem slice_eq {p : Piece} {scratch : Nat → UInt8} {start : Nat}
    (hend : start + p.length ≤ d.scratchSize)
    (h : ∀ k < p.length, scratch (start + k) = d.file (p.off + k)) :
    slice d.scratchSize scratch start (start + p.length) = d.bytesOf p := by
  unfold slice Reader.bytesOf
  have hlow : min start d.scratchSize = start := by omega
  have hcount : min (start + p.length) d.scratchSize - start = p.length := by omega
  rw [hlow, hcount]
  exact List.map_congr_left fun k hk => h k (List.mem_range.mp hk)

/-- The region that a piece is found in, with its cursor. -/
theorem find_region {regions : List Extent} {p : Piece}
    (h : ∃ r ∈ regions, r.1 ≤ p.off ∧ p.off + p.length ≤ r.2) :
    ∃ r c, ((regions.zip (Reader.cursorsFrom 0 regions)).find? fun r =>
        r.1.1 ≤ p.off ∧ p.off + p.length ≤ r.1.2) = some (r, c) ∧
      (r, c) ∈ regions.zip (Reader.cursorsFrom 0 regions) ∧
      r.1 ≤ p.off ∧ p.off + p.length ≤ r.2 := by
  obtain ⟨r, hr, hbounds⟩ := h
  obtain ⟨c, hc⟩ := @Reader.exists_cursor regions 0 r hr
  cases hfind : (regions.zip (Reader.cursorsFrom 0 regions)).find? fun r =>
      r.1.1 ≤ p.off ∧ p.off + p.length ≤ r.1.2 with
  | none =>
    have hnot := List.find?_eq_none.mp hfind (r, c) hc
    simp only [decide_eq_true_eq] at hnot
    exact (hnot hbounds).elim
  | some found =>
    have hpred := List.find?_some hfind
    simp only [decide_eq_true_eq] at hpred
    exact ⟨found.1, found.2, rfl, List.mem_of_find?_eq_some hfind, hpred⟩

theorem scatter_spec {regions : List Extent} {scratch : Nat → UInt8}
    (hgood : ∀ r ∈ regions, GoodRegion d.size r)
    (hfits : (regions.map fun r => r.2 - r.1).sum ≤ d.scratchSize)
    (hlaid : d.LaidOut scratch 0 regions) (pieces : List Piece) : ∀ banks,
    (∀ p ∈ pieces, p.off + p.length ≤ d.size) →
    (∀ p ∈ pieces, ∃ r ∈ regions, r.1 ≤ p.off ∧ p.off + p.length ≤ r.2) →
    scatter half row d.scratchSize (regions.zip (Reader.cursorsFrom 0 regions)) scratch pieces
      banks = .ok (copied d half row pieces banks) := by
  induction pieces with
  | nil =>
    intro banks _ _
    rfl
  | cons p pieces ih =>
    intro banks hinside hregion
    obtain ⟨hp, hrest⟩ := List.forall_mem_cons.mp hinside
    obtain ⟨hpr, hrestr⟩ := List.forall_mem_cons.mp hregion
    obtain ⟨r, c, hfind, hmem, hlow, hhigh⟩ := find_region hpr
    obtain ⟨hr, hle⟩ := Reader.mem_zip_cursors hmem
    have hwant := Reader.want_eq (hgood r hr)
    have hslice : slice d.scratchSize scratch (c + p.off - r.1) (c + p.off - r.1 + p.length) =
        d.bytesOf p := by
      refine slice_eq (by omega) fun k hk => ?_
      have hbyte := hlaid.of_mem hmem (p.off - r.1 + k) (by omega)
      have haddress : c + p.off - r.1 + k = c + (p.off - r.1 + k) := by omega
      have hfile : r.1 + (p.off - r.1 + k) = p.off + k := by omega
      rw [haddress, hbyte, hfile]
    unfold scatter
    rw [hfind]
    simp only
    rw [hslice]
    exact ih _ hrest hrestr

/-- Each piece is found, whatever is in the scratch. -/
theorem scatter_ne_error {regions : List Extent} {scratch : Nat → UInt8} {size : Nat}
    {e : ReadError} (pieces : List Piece) : ∀ banks,
    (∀ p ∈ pieces, ∃ r ∈ regions, r.1 ≤ p.off ∧ p.off + p.length ≤ r.2) →
    scatter half row size (regions.zip (Reader.cursorsFrom 0 regions)) scratch pieces
      banks ≠ .error e := by
  induction pieces with
  | nil =>
    intro banks _ herr
    cases herr
  | cons p pieces ih =>
    intro banks hregion
    obtain ⟨hpr, hrestr⟩ := List.forall_mem_cons.mp hregion
    obtain ⟨r, c, hfind, -⟩ := find_region hpr
    unfold scatter
    rw [hfind]
    exact ih _ hrestr

/-- The scratch holds what the regions of each group come to. -/
theorem scratchNeed_le {groups : List (List Piece)} {pieces : List Piece} (h : pieces ∈ groups) :
    scratchNeed pieces ≤ scratchBytes groups :=
  (Lib.foldl_max_spec (groups.map scratchNeed) 0).2.1 _ (List.mem_map_of_mem h)

/-! ## The whole read -/

/-- The calls of a read that went through: all within the scratch, and on blocks if and only if
the answers are. -/
theorem readGroup_copies {pieces : List Piece} (scratch : Nat → UInt8) (banks : BankBytes)
    (hpos : ∀ i k, 0 < d.answers i k) (hinside : ∀ p ∈ pieces, p.off + p.length ≤ d.size)
    (hfits : scratchNeed pieces ≤ d.scratchSize) :
    ∃ reads, readGroup d half flat row pieces scratch banks =
        .ok (copied d half row pieces banks, reads) ∧
      (∀ c ∈ reads, c.address + c.length ≤ d.scratchSize) ∧
      ((∀ c ∈ reads, c.OnBlocks) ↔ d.LandsOnBlocks (regionsOf pieces)) := by
  obtain ⟨hgood, hregion⟩ := regionsOf_spec hinside
  obtain ⟨st, hst, -, hlaid, reads, hreads, hcalls, hall⟩ :=
    @Reader.readRegions_spec d flat hpos (regionsOf pieces) 0 0 ⟨scratch, []⟩ hgood
      (Nat.dvd_zero BLK) (by rw [Nat.zero_add]; exact hfits)
  rw [List.nil_append] at hreads
  refine ⟨reads, ?_, fun c hc => ?_, fun hblocks i r hr k hk => ?_, fun hlands c hc => ?_⟩
  · unfold readGroup
    rw [hst]
    simp only
    rw [scatter_spec hgood hfits hlaid pieces banks hinside hregion]
    simp only
    rw [hreads]
  · obtain ⟨j, r, cursor, k, -, -, hcursor, hk, rfl⟩ := hcalls c hc
    unfold Reader.callAt
    simp only
    omega
  · -- the call after an answer begins where the answer ended
    obtain ⟨cursor, hmem⟩ := hall i r k hr (by rw [Nat.zero_add]; exact hk)
    have hoffset := (hblocks _ hmem).1
    have hlow := (hgood r (List.mem_of_getElem? hr)).low
    unfold Reader.callAt at hoffset
    simp only [Nat.zero_add] at hoffset
    exact (Nat.dvd_add_right hlow).mp hoffset
  · obtain ⟨j, r, cursor, k, hr, hcursor, -, hk, rfl⟩ := hcalls c hc
    rw [Nat.zero_add] at hk ⊢
    have hland := hlands j r hr k hk
    have hregion := hgood r (List.mem_of_getElem? hr)
    have hwant : BLK ∣ d.want r := by
      rw [Reader.want_eq hregion]
      exact Nat.dvd_sub hregion.high hregion.low
    exact ⟨Nat.dvd_add hregion.low hland, Nat.dvd_add hcursor hland, Nat.dvd_sub hwant hland⟩

/-- A read raises only on an answer of zero before the end of the file. -/
theorem readGroup_raises {pieces : List Piece} {scratch : Nat → UInt8} {banks : BankBytes}
    {e : ReadError} (hinside : ∀ p ∈ pieces, p.off + p.length ≤ d.size)
    (hfits : scratchNeed pieces ≤ d.scratchSize)
    (herr : readGroup d half flat row pieces scratch banks = .error e) :
    ∃ i r k, (regionsOf pieces)[i]? = some r ∧ d.Starved i r k := by
  obtain ⟨hgood, hregion⟩ := regionsOf_spec hinside
  unfold readGroup at herr
  split at herr
  · rename_i herror
    obtain ⟨j, r, k, hr, hk⟩ := Reader.readRegions_error (regionsOf pieces) 0 0 _ hgood
      (by rw [Nat.zero_add]; exact hfits) herror
    rw [Nat.zero_add] at hk
    exact ⟨j, r, k, hr, hk⟩
  · rename_i hok
    rw [Reader.readRegions_cursors _ hok] at herr
    split at herr
    · rename_i herror
      exact (scatter_ne_error pieces banks hregion herror).elim
    · cases herr

end Group

/-- The row gets the bytes of the file, by calls that stay within the scratch and on blocks. -/
def ReadsExactly (d : Reader) (half : List UInt8 → UInt8 × UInt8) (flat row : Nat)
    (pieces : List Piece) (scratch : Nat → UInt8) (banks : BankBytes) : Prop :=
  ∃ reads, readGroup d half flat row pieces scratch banks =
      .ok (copied d half row pieces banks, reads) ∧
    (∀ c ∈ reads, c.address + c.length ≤ d.scratchSize) ∧ ∀ c ∈ reads, c.OnBlocks

/-- A group of records, the file it is read from, and the scratch of the pool. -/
structure GroupRead (d : Reader) (groups : List (List Piece)) (pieces : List Piece) : Prop where
  mem : pieces ∈ groups
  inside : ∀ p ∈ pieces, p.off + p.length ≤ d.size
  scratch : d.scratchSize = scratchBytes groups

theorem GroupRead.fits {d : Reader} {groups : List (List Piece)} {pieces : List Piece}
    (h : GroupRead d groups pieces) : scratchNeed pieces ≤ d.scratchSize := by
  rw [h.scratch]
  exact scratchNeed_le h.mem

/-- **A direct read is exact**: it raises only on an answer of zero before the end of the file;
with positive answers the row always gets the bytes of the file, by calls within the scratch, and
the calls keep to blocks if and only if the answers do. -/
theorem direct_reads {d : Reader} {groups : List (List Piece)} {pieces : List Piece}
    (h : GroupRead d groups pieces) (half : List UInt8 → UInt8 × UInt8) (flat row : Nat)
    (scratch : Nat → UInt8) (banks : BankBytes) :
    (∀ e, readGroup d half flat row pieces scratch banks = .error e →
      ∃ i r k, (regionsOf pieces)[i]? = some r ∧ d.Starved i r k) ∧
    ((∀ i k, 0 < d.answers i k) →
      (∃ reads, readGroup d half flat row pieces scratch banks =
          .ok (copied d half row pieces banks, reads) ∧
        ∀ c ∈ reads, c.address + c.length ≤ d.scratchSize) ∧
      (ReadsExactly d half flat row pieces scratch banks ↔
        d.LandsOnBlocks (regionsOf pieces))) := by
  refine ⟨fun e herr => readGroup_raises h.inside h.fits herr, fun hpos => ?_⟩
  obtain ⟨reads, hreads, hinside, hblocks⟩ := readGroup_copies scratch banks hpos h.inside h.fits
  refine ⟨⟨reads, hreads, hinside⟩, fun hexact => ?_, fun hlands => ?_⟩
  · obtain ⟨reads', hreads', -, hon⟩ := hexact
    rw [hreads] at hreads'
    cases hreads'
    exact hblocks.mp hon
  · exact ⟨reads, hreads, hinside, hblocks.mpr hlands⟩

/-- Ten bytes at the head of a file of two blocks. -/
def headPiece : Piece := ⟨0, 10, "down_packed", 0, 0, by decide, by simp⟩

/-- A file whose bytes are told apart, read by a kernel that gives `first` bytes to the first call
and whole blocks from then on. -/
def twoBlocks (first : Nat) : Reader where
  file := fun x => UInt8.ofNat x
  size := 8192
  scratchSize := 4096
  answers := fun _ k => if k = 0 then first else 4096

theorem twoBlocks_read (first : Nat) : GroupRead (twoBlocks first) [[headPiece]] [headPiece] := by
  refine ⟨List.mem_singleton_self _, by simp [headPiece, twoBlocks], ?_⟩
  show 4096 = scratchBytes [[headPiece]]
  decide

theorem headPiece_regions : regionsOf [headPiece] = [(0, 4096)] := by decide

theorem twoBlocks_pos {first : Nat} (h : 0 < first) (i k : Nat) :
    0 < (twoBlocks first).answers i k := by
  show 0 < if k = 0 then first else 4096
  split
  · exact h
  · decide

theorem twoBlocks_lands : (twoBlocks 4096).LandsOnBlocks (regionsOf [headPiece]) := by
  rw [headPiece_regions]
  intro i r hr k hk
  obtain ⟨rfl, rfl⟩ : i = 0 ∧ (0, 4096) = r := by
    rcases i with _ | i
    · exact ⟨rfl, by simpa using hr⟩
    · simp at hr
  rcases k with _ | k
  · exact Nat.dvd_zero _
  · -- one call brings all
    have hmono : (twoBlocks 4096).landed 0 8192 1 ≤ (twoBlocks 4096).landed 0 8192 (k + 1) :=
      Reader.landed_mono (Nat.le_add_left 1 k)
    have hone : (twoBlocks 4096).landed 0 8192 1 = 4096 := by decide
    have hwant : (twoBlocks 4096).want (0, 4096) = 4096 := by decide
    rw [hwant] at hk
    have hsize : (twoBlocks 4096).size - (0, 4096).1 = 8192 := rfl
    rw [hsize] at hk
    omega

theorem direct_reads_twoBlocks :
    ReadsExactly (twoBlocks 4096) (fun _ => (0, 0)) 0 0 [headPiece] (fun _ => 0)
      (fun _ _ _ => 0) :=
  ((direct_reads (twoBlocks_read 4096) _ 0 0 _ _).2 (twoBlocks_pos (by decide))).2.mpr
    twoBlocks_lands

/-- **After a hundred bytes the next call begins at byte one hundred.** -/
theorem short_answer_leaves_blocks :
    GroupRead (twoBlocks 100) [[headPiece]] [headPiece] ∧
    (∀ i k, 0 < (twoBlocks 100).answers i k) ∧
    ¬ReadsExactly (twoBlocks 100) (fun _ => (0, 0)) 0 0 [headPiece] (fun _ => 0)
      (fun _ _ _ => 0) := by
  have hread := twoBlocks_read 100
  have hpos := @twoBlocks_pos 100 (by decide)
  refine ⟨hread, hpos, fun hexact => ?_⟩
  obtain ⟨reads, hreads, -, hblocks⟩ := @readGroup_copies (twoBlocks 100) (fun _ => (0, 0)) 0 0
    [headPiece] (fun _ => 0) (fun _ _ _ => 0) hpos hread.inside hread.fits
  obtain ⟨reads', hreads', -, hon⟩ := hexact
  rw [hreads] at hreads'
  cases hreads'
  have hland := hblocks.mp hon 0 (0, 4096) (by rw [headPiece_regions]; rfl) 1 (by decide)
  revert hland
  decide

end FreeToken.Mirror
