import RegisterCompiler.Proofs.Assembly.ReadBack
import RegisterCompiler.Proofs.ControlFlow.Integrity
import RegisterCompiler.Proofs.Listing.Consumed

/-!
# A listing covers every byte once

A listing takes two passes over the same bytes: the first one collects the targets that get labels, the second one writes the
lines. Here both are loops over offsets that break off at the first access outside the code and may run out of steps
(`collectTargets`, `listLines`). They stay in step because each of them goes from chunk to chunk (`Follows`): what a step does is
decided by the chunk at its offset, and the next offset is the end of that chunk, or, for data that reaches past the end, at least
as far as the code is long. So the two passes together are the listing, whose chunks tile the code, for any bytes and any stretches
of data (`listing_covers`).
-/

namespace RegisterCompiler.X64

/-! ## Two passes over offsets -/

/-- How a pass over code breaks off. -/
inductive Abort where
  | refused (e : ListingError)
  /-- Something outside the code was asked for. -/
  | outOfBounds (offset : Nat)
  /-- The steps were used up before the end of the code. -/
  | unfinished
  deriving DecidableEq, Repr

/-- Where the first stretch of data ends that has an offset. -/
def dataEnd? (ranges : List ByteRange) (offset : Nat) : Option Nat :=
  (ranges.find? fun r => r.contains offset).map ByteRange.stop

/-- The bytes from one offset up to another, both of them inside the code or at its end. -/
def slice (code : List UInt8) (start stop : Nat) : Except Abort (List UInt8) :=
  if start ≤ stop ∧ stop ≤ code.length then .ok ((code.drop start).take (stop - start)) else .error (.outOfBounds stop)

/-- The instruction at an offset inside the code. -/
def instructionAt (code : List UInt8) (offset : Nat) : Except Abort Chunk :=
  if offset < code.length then (Chunk.first [] offset (code.drop offset)).mapError .refused else .error (.outOfBounds offset)

/-- A loop that visits offsets until one is not before the end. A visit says which offset is next. -/
def pass {α : Type} (visit : Nat → α → Except Abort (Nat × α)) (length : Nat) : Nat → Nat → α → Except Abort α
  | 0, offset, a => if offset < length then .error .unfinished else .ok a
  | steps + 1, offset, a =>
    if offset < length then
      match visit offset a with
      | .error e => .error e
      | .ok (next, a) => pass visit length steps next a
    else .ok a

/-- A visit of the first pass: data is stepped over, and the target of an instruction is put among the others. -/
def collectAt (ranges : List ByteRange) (code : List UInt8) (offset : Nat) (targets : List Nat) :
    Except Abort (Nat × List Nat) :=
  match dataEnd? ranges offset with
  | some stop => .ok (stop, targets)
  | none =>
    match instructionAt code offset with
    | .error e => .error e
    | .ok c => .ok (offset + c.size, c.target?.toList.foldl (fun ts t => insertAscending t ts) targets)

/-- A visit of the second pass: the lines of the data up to its end, at most up to the end of the code, or of the instruction. -/
def showAt (name : Nat → Option String) (ranges : List ByteRange) (code : List UInt8) (offset : Nat) (lines : List String) :
    Except Abort (Nat × List String) :=
  match dataEnd? ranges offset with
  | some stop =>
    match slice code offset (min stop code.length) with
    | .error e => .error e
    | .ok bytes => .ok (min stop code.length, lines ++ Chunk.lines name (.data offset bytes))
  | none =>
    match instructionAt code offset with
    | .error e => .error e
    | .ok c => .ok (offset + c.size, lines ++ c.lines name)

/-- The first pass, in no more steps than the code has bytes. -/
def collectTargets (ranges : List ByteRange) (code : List UInt8) : Except Abort (List Nat) :=
  pass (collectAt ranges code) code.length code.length 0 []

/-- The second pass, in no more steps than the code has bytes, with the targets that the first one collected. -/
def listLines (resolve : Nat → Option String) (ranges : List ByteRange) (code : List UInt8) (targets : List Nat) :
    Except Abort (List String) :=
  pass (showAt (name? resolve targets) ranges code) code.length code.length 0 []

/-! ## The chunk at an offset -/

/-- What a listing says of a chunk is so: an instruction outside every stretch of data is decoded from exactly its bytes, and data
goes to the end of the first stretch that has its offset, at most to the end of the code. -/
def Chunk.Stands (ranges : List ByteRange) (code : List UInt8) : Chunk → Prop
  | instruction offset i size target =>
    (∀ r ∈ ranges, r.contains offset = false) ∧ decode (code.drop offset) = .ok (i, size) ∧
      (∀ rest, decode ((code.drop offset).take size ++ rest) = .ok (i, size)) ∧
      i.displacement?.map (fun d => ((offset + size : Nat) : Int) + d.toInt) = target.map Nat.cast
  | data offset bytes =>
    bytes = (code.drop offset).take bytes.length ∧
      ∃ r, ranges.find? (fun r => r.contains offset) = some r ∧ offset + bytes.length = min r.stop code.length

variable {ranges : List ByteRange} {code : List UInt8} {offset : Nat}

/-- A chunk begins at its offset, has a byte and ends inside the code. -/
theorem Chunk.stands_of_first {c : Chunk} (hoffset : offset < code.length)
    (h : first ranges offset (code.drop offset) = .ok c) :
    c.offset = offset ∧ 0 < c.size ∧ offset + c.size ≤ code.length ∧ c.Stands ranges code := by
  unfold first at h
  cases hfind : ranges.find? fun r => r.contains offset with
  | some r =>
    rw [hfind] at h
    obtain rfl : data offset ((code.drop offset).take (r.stop - offset)) = c := Except.ok.inj h
    have hcontains : offset < r.stop := by
      have hr := List.find?_some hfind
      simp only [ByteRange.contains, Bool.and_eq_true, decide_eq_true_eq] at hr
      exact hr.2
    have hsize : ((code.drop offset).take (r.stop - offset)).length = min (r.stop - offset) (code.length - offset) := by
      rw [List.length_take, List.length_drop]
    refine ⟨rfl, ?_, ?_, ?_, r, hfind, ?_⟩
    · simp only [size, hsize]
      omega
    · simp only [size, hsize]
      omega
    · rw [hsize, ← List.take_take, List.take_of_length_le (Nat.le_of_eq (List.length_drop))]
    · rw [hsize]
      omega
  | none =>
    have hout : ∀ r ∈ ranges, r.contains offset = false := by
      intro r hr
      exact Bool.eq_false_iff.2 (List.find?_eq_none.1 hfind r hr)
    rw [hfind] at h
    simp only at h
    cases hdecode : decode (code.drop offset) with
    | error fault =>
      rw [hdecode] at h
      cases h
    | ok decoded =>
      obtain ⟨i, n⟩ := decoded
      rw [hdecode] at h
      simp only at h
      obtain ⟨hpos, hle, hreads⟩ := decode_eq_of_ok hdecode
      rw [List.length_drop] at hle
      -- a target before the code is refused, so that of a chunk is no negative number
      cases hd : i.displacement? with
      | none =>
        rw [hd] at h
        obtain rfl : instruction offset i n none = c := Except.ok.inj h
        refine ⟨rfl, hpos, ?_, hout, hdecode, hreads, ?_⟩
        · simp only [size]
          omega
        · rw [hd]
          rfl
      | some d =>
        rw [hd] at h
        simp only at h
        split at h
        · cases h
        · rename_i hneg
          obtain rfl := Except.ok.inj h
          refine ⟨rfl, hpos, ?_, hout, hdecode, hreads, ?_⟩
          · simp only [size]
            omega
          · rw [hd, Option.map_some, Option.map_some, Int.toNat_of_nonneg (not_lt.1 hneg)]

/-- Where code is found too short for a chunk, it is so at its end or before. -/
theorem Chunk.endOfCode_le {n : Nat} (hoffset : offset < code.length)
    (h : first ranges offset (code.drop offset) = .error (.endOfCode n)) : n ≤ code.length := by
  unfold first at h
  split at h
  · cases h
  · split at h
    · rename_i fault hfault
      cases fault with
      | endOfCode taken =>
        obtain rfl : offset + taken = n := ListingError.endOfCode.inj (Except.error.inj h)
        have htaken := le_length_of_decode_eq_error hfault
        rw [List.length_drop] at htaken
        omega
      | unsupportedOpcode opcode => cases h
      | unsupportedAddressing => cases h
    · split at h
      · cases h
      · simp only at h
        split at h <;> cases h

/-- Code is cut chunk by chunk. -/
theorem Chunk.cut_step (hoffset : offset < code.length) :
    Chunk.cut ranges offset 0 (code.drop offset) = match first ranges offset (code.drop offset) with
      | .error e => .error e
      | .ok c => (Chunk.cut ranges (offset + c.size) 0 (code.drop (offset + c.size))).map (c :: ·) := by
  cases hfirst : first ranges offset (code.drop offset) with
  | error e =>
    rw [List.drop_eq_getElem_cons hoffset] at hfirst ⊢
    rw [Chunk.cut, hfirst]
  | ok c =>
    obtain ⟨-, hpos, hle, -⟩ := stands_of_first hoffset hfirst
    have hlength : ((code.drop offset).take c.size).length = c.size := by
      rw [List.length_take, List.length_drop]
      omega
    have hsplit : code.drop offset = (code.drop offset).take c.size ++ code.drop (offset + c.size) := by
      rw [← List.drop_drop, List.take_append_drop]
    have hbytes : (code.drop offset).take c.size ≠ [] := by
      rw [← List.length_pos_iff, hlength]
      exact hpos
    have hcut := cut_chunk hbytes (hsplit ▸ hfirst) hlength.symm
    rw [hlength] at hcut
    rw [hsplit]
    exact hcut

/-- Behind the end of the code there are no chunks. -/
theorem Chunk.cut_of_length_le (h : code.length ≤ offset) : Chunk.cut ranges offset 0 (code.drop offset) = .ok [] := by
  rw [List.drop_of_length_le h, Chunk.cut]

/-- The chunks of the code from an offset on tile it, and each of them stands there. -/
theorem Chunk.tiled_cut {cs : List Chunk} (hoffset : offset ≤ code.length)
    (h : Chunk.cut ranges offset 0 (code.drop offset) = .ok cs) : Tiled offset cs code.length ∧ ∀ c ∈ cs, c.Stands ranges code := by
  induction hn : code.length - offset using Nat.strong_induction_on generalizing offset cs with
  | _ n ih =>
    rcases Nat.eq_or_lt_of_le hoffset with heq | hlt
    · rw [cut_of_length_le (Nat.le_of_eq heq.symm)] at h
      obtain rfl := Except.ok.inj h
      exact ⟨heq, by simp⟩
    · rw [cut_step hlt] at h
      cases hfirst : first ranges offset (code.drop offset) with
      | error e =>
        rw [hfirst] at h
        cases h
      | ok c =>
        obtain ⟨hat, hpos, hle, hstands⟩ := stands_of_first hlt hfirst
        rw [hfirst] at h
        cases hrest : Chunk.cut ranges (offset + c.size) 0 (code.drop (offset + c.size)) with
        | error e =>
          simp only [hrest] at h
          cases h
        | ok rest =>
          simp only [hrest] at h
          obtain rfl : c :: rest = cs := Except.ok.inj h
          obtain ⟨htiled, hall⟩ := ih _ (by omega) hle hrest rfl
          exact ⟨⟨hat, hpos, htiled⟩, List.forall_mem_cons.2 ⟨hstands, hall⟩⟩

/-- Code that cannot be cut has an offset at which no chunk stands. -/
theorem Chunk.exists_first_error {e : ListingError} (h : Chunk.cut ranges offset 0 (code.drop offset) = .error e) :
    ∃ o, o < code.length ∧ first ranges o (code.drop o) = .error e := by
  induction hn : code.length - offset using Nat.strong_induction_on generalizing offset with
  | _ n ih =>
    rcases Nat.lt_or_ge offset code.length with hlt | hge
    · rw [cut_step hlt] at h
      cases hfirst : first ranges offset (code.drop offset) with
      | error e' =>
        rw [hfirst] at h
        obtain rfl := Except.error.inj h
        exact ⟨offset, hlt, hfirst⟩
      | ok c =>
        obtain ⟨-, hpos, -, -⟩ := stands_of_first hlt hfirst
        rw [hfirst] at h
        cases hrest : Chunk.cut ranges (offset + c.size) 0 (code.drop (offset + c.size)) with
        | error e' =>
          simp only [hrest] at h
          obtain rfl : e' = e := Except.error.inj h
          exact ih _ (by omega) hrest rfl
        | ok rest =>
          simp only [hrest] at h
          cases h
    · rw [cut_of_length_le hge] at h
      cases h

/-! ## Both passes go from chunk to chunk -/

/-- A visit is decided by the chunk at its offset: it is refused as the chunk is, or adds the chunk and goes on at its end. Where
the chunk reaches the end of the code, the visit may go on anywhere behind. -/
def Follows {α : Type} (ranges : List ByteRange) (code : List UInt8) (visit : Nat → α → Except Abort (Nat × α))
    (add : α → Chunk → α) : Prop :=
  ∀ offset a, offset < code.length →
    match Chunk.first ranges offset (code.drop offset) with
    | .error e => visit offset a = .error (.refused e)
    | .ok c => ∃ next, visit offset a = .ok (next, add a c) ∧ min next code.length = offset + c.size

/-- An instruction is found where there is no data. -/
theorem instructionAt_eq (hoffset : offset < code.length) (hfind : ranges.find? (fun r => r.contains offset) = none) :
    instructionAt code offset = (Chunk.first ranges offset (code.drop offset)).mapError .refused := by
  rw [instructionAt, if_pos hoffset, Chunk.first, Chunk.first, hfind]
  rfl

/-- The first pass goes from chunk to chunk and collects the targets. -/
theorem follows_collectAt (ranges : List ByteRange) (code : List UInt8) :
    Follows ranges code (collectAt ranges code) fun ts c => c.target?.toList.foldl (fun ts t => insertAscending t ts) ts := by
  intro offset ts hoffset
  cases hfind : ranges.find? fun r => r.contains offset with
  | some r =>
    have hfirst : Chunk.first ranges offset (code.drop offset) = .ok (.data offset ((code.drop offset).take (r.stop - offset))) := by
      rw [Chunk.first, hfind]
    obtain ⟨-, -, -, -, r', hfind', hstop⟩ := Chunk.stands_of_first hoffset hfirst
    obtain rfl : r = r' := Option.some.inj (hfind.symm.trans hfind')
    rw [hfirst]
    refine ⟨r.stop, ?_, hstop.symm⟩
    rw [collectAt, dataEnd?, hfind]
    rfl
  | none =>
    have hdata : dataEnd? ranges offset = none := by rw [dataEnd?, hfind, Option.map_none]
    have hinstruction := instructionAt_eq hoffset hfind
    cases hfirst : Chunk.first ranges offset (code.drop offset) with
    | error e =>
      rw [hfirst] at hinstruction
      simp only [collectAt, hdata, hinstruction, Except.mapError]
    | ok c =>
      obtain ⟨-, -, hle, -⟩ := Chunk.stands_of_first hoffset hfirst
      rw [hfirst] at hinstruction
      refine ⟨offset + c.size, ?_, min_eq_left hle⟩
      simp only [collectAt, hdata, hinstruction, Except.mapError]

/-- The second pass goes from chunk to chunk and writes the lines. -/
theorem follows_showAt (name : Nat → Option String) (ranges : List ByteRange) (code : List UInt8) :
    Follows ranges code (showAt name ranges code) fun lines c => lines ++ c.lines name := by
  intro offset lines hoffset
  cases hfind : ranges.find? fun r => r.contains offset with
  | some r =>
    have hdata : dataEnd? ranges offset = some r.stop := by rw [dataEnd?, hfind, Option.map_some]
    have hfirst : Chunk.first ranges offset (code.drop offset) = .ok (.data offset ((code.drop offset).take (r.stop - offset))) := by
      rw [Chunk.first, hfind]
    obtain ⟨-, hpos, -, -, r', hfind', hstop⟩ := Chunk.stands_of_first hoffset hfirst
    obtain rfl : r = r' := Option.some.inj (hfind.symm.trans hfind')
    have hslice : slice code offset (min r.stop code.length) = .ok ((code.drop offset).take (r.stop - offset)) := by
      have htake : (code.drop offset).take (min r.stop code.length - offset) = (code.drop offset).take (r.stop - offset) := by
        rw [← hstop, Nat.add_sub_cancel_left, List.length_take, ← List.take_take, List.take_length]
      rw [slice, if_pos (by omega), htake]
    rw [hfirst]
    refine ⟨min r.stop code.length, ?_, ?_⟩
    · simp only [showAt, hdata, hslice]
    · rw [Nat.min_assoc, Nat.min_self]
      exact hstop.symm
  | none =>
    have hdata : dataEnd? ranges offset = none := by rw [dataEnd?, hfind, Option.map_none]
    have hinstruction := instructionAt_eq hoffset hfind
    cases hfirst : Chunk.first ranges offset (code.drop offset) with
    | error e =>
      rw [hfirst] at hinstruction
      simp only [showAt, hdata, hinstruction, Except.mapError]
    | ok c =>
      obtain ⟨-, -, hle, -⟩ := Chunk.stands_of_first hoffset hfirst
      rw [hfirst] at hinstruction
      refine ⟨offset + c.size, ?_, min_eq_left hle⟩
      simp only [showAt, hdata, hinstruction, Except.mapError]

/-- A pass that goes from chunk to chunk adds all chunks or is refused as they are, in as many steps as there are bytes. -/
theorem Follows.pass_eq {α : Type} {visit : Nat → α → Except Abort (Nat × α)} {add : α → Chunk → α}
    (h : Follows ranges code visit add) (steps offset : Nat) (a : α) (hsteps : code.length ≤ offset + steps) :
    pass visit code.length steps offset a = match Chunk.cut ranges offset 0 (code.drop offset) with
      | .error e => .error (.refused e)
      | .ok cs => .ok (cs.foldl add a) := by
  induction steps generalizing offset a with
  | zero =>
    rw [Nat.add_zero] at hsteps
    rw [Chunk.cut_of_length_le hsteps, pass, if_neg (by omega)]
    rfl
  | succ steps ih =>
    rcases Nat.lt_or_ge offset code.length with hlt | hge
    · have hvisit := h offset a hlt
      rw [pass, if_pos hlt, Chunk.cut_step hlt]
      cases hfirst : Chunk.first ranges offset (code.drop offset) with
      | error e =>
        rw [hfirst] at hvisit
        rw [hvisit]
      | ok c =>
        rw [hfirst] at hvisit
        obtain ⟨next, hvisit, hnext⟩ : ∃ next, visit offset a = .ok (next, add a c) ∧ min next code.length = offset + c.size :=
          hvisit
        obtain ⟨-, hpos, -, -⟩ := Chunk.stands_of_first hlt hfirst
        -- behind the end of the code it makes no difference where the visit goes on
        have hcut : Chunk.cut ranges next 0 (code.drop next) =
            Chunk.cut ranges (offset + c.size) 0 (code.drop (offset + c.size)) := by
          rcases Nat.lt_or_ge next code.length with hinside | hbehind
          · rw [← hnext, min_eq_left hinside.le]
          · rw [← hnext, min_eq_right hbehind, Chunk.cut_of_length_le hbehind, Chunk.cut_of_length_le le_rfl]
        rw [hvisit]
        show pass visit code.length steps next (add a c) = _
        rw [ih next (add a c) (by omega), hcut]
        cases hrest : Chunk.cut ranges (offset + c.size) 0 (code.drop (offset + c.size)) <;>
          simp only [hrest, Except.map, List.foldl_cons]
    · rw [Chunk.cut_of_length_le hge, pass, if_neg (by omega)]
      rfl

/-- The first pass collects the targets of all chunks. -/
theorem collectTargets_eq (ranges : List ByteRange) (code : List UInt8) :
    collectTargets ranges code = match chunks ranges code with
      | .error e => .error (.refused e)
      | .ok cs => .ok (targets cs) := by
  have hfold : ∀ (cs : List Chunk) (ts : List Nat),
      cs.foldl (fun ts c => c.target?.toList.foldl (fun ts t => insertAscending t ts) ts) ts =
        (cs.filterMap Chunk.target?).foldl (fun ts t => insertAscending t ts) ts := by
    intro cs
    induction cs with
    | nil => exact fun ts => rfl
    | cons c rest ih =>
      intro ts
      rw [List.foldl_cons, ih, List.filterMap_cons]
      cases c.target? <;> rfl
  rw [collectTargets, (follows_collectAt ranges code).pass_eq code.length 0 [] (by omega), List.drop_zero, chunks]
  cases Chunk.cut ranges 0 0 code with
  | error e => rfl
  | ok cs =>
    simp only [hfold]
    rfl

/-- The second pass writes the lines of all chunks. -/
theorem listLines_eq (resolve : Nat → Option String) (ranges : List ByteRange) (code : List UInt8) (ts : List Nat) :
    listLines resolve ranges code ts = match chunks ranges code with
      | .error e => .error (.refused e)
      | .ok cs => .ok (cs.flatMap (Chunk.lines (name? resolve ts))) := by
  have hfold : ∀ (cs : List Chunk) (lines : List String),
      cs.foldl (fun lines c => lines ++ c.lines (name? resolve ts)) lines =
        lines ++ cs.flatMap (Chunk.lines (name? resolve ts)) := by
    intro cs
    induction cs with
    | nil => exact fun lines => (List.append_nil lines).symm
    | cons c rest ih =>
      intro lines
      rw [List.foldl_cons, ih, List.flatMap_cons, List.append_assoc]
  rw [listLines, (follows_showAt _ ranges code).pass_eq code.length 0 [] (by omega), List.drop_zero, chunks]
  cases Chunk.cut ranges 0 0 code with
  | error e => rfl
  | ok cs =>
    simp only [hfold, List.nil_append]

/-! ## What a listing covers -/

/-- The two passes of a listing, and what its lines cover. -/
structure CoversOnce (resolve : Nat → Option String) (ranges : List ByteRange) (code : List UInt8) : Prop where
  /-- The first pass ends inside the code: it is refused exactly if the listing is, with the same error, and otherwise collects the
  targets. -/
  first : collectTargets ranges code = ((chunks ranges code).map targets).mapError .refused
  refused : ∀ e, listing resolve ranges code = .error e ↔ collectTargets ranges code = .error (.refused e)
  /-- After the first pass the second one comes to its end, and its lines are the listing. -/
  second : ∀ ts, collectTargets ranges code = .ok ts →
    ∃ lines, listLines resolve ranges code ts = .ok lines ∧ listing resolve ranges code = .ok (String.intercalate "\n" lines)
  /-- Code that is found too short is so at its end or before. -/
  ends : ∀ n, listing resolve ranges code = .error (.endOfCode n) → n ≤ code.length
  /-- The lines are those of chunks that tile the code, and each chunk stands where it says. A chunk has the name of its offset on a
  line before, if there is one, and one line of its own, with its offset and its text. -/
  covered : ∀ ts lines, collectTargets ranges code = .ok ts → listLines resolve ranges code ts = .ok lines →
    ∃ cs, chunks ranges code = .ok cs ∧ Tiled 0 cs code.length ∧ (∀ c ∈ cs, c.Stands ranges code) ∧
      lines = cs.flatMap fun c => match name? resolve ts c.offset with
        | some name => [name ++ ":", hexOffset c.offset ++ ": " ++ c.text (name? resolve ts)]
        | none => [hexOffset c.offset ++ ": " ++ c.text (name? resolve ts)]
  /-- Where nothing has a name of its own, a target is shown by the number of smaller targets. -/
  numbered : ∀ cs, chunks ranges code = .ok cs → ∀ o i size t, .instruction o i size (some t) ∈ cs →
    Chunk.text (name? unnamed (targets cs)) (.instruction o i size (some t)) =
      i.text ("L" ++ toString (Nat.count (· ∈ cs.filterMap Chunk.target?) t))

/-- Every code is listed in two passes that stay inside it, or refused by the first one; the lines cover every byte once. -/
theorem listing_covers (resolve : Nat → Option String) (ranges : List ByteRange) (code : List UInt8) :
    CoversOnce resolve ranges code where
  first := by
    rw [collectTargets_eq]
    cases chunks ranges code <;> rfl
  refused := by
    intro e
    rw [collectTargets_eq, listing]
    cases chunks ranges code <;> simp [Except.map]
  second := by
    intro ts hts
    rw [collectTargets_eq] at hts
    rw [listLines_eq, listing]
    cases hcs : chunks ranges code with
    | error e =>
      rw [hcs] at hts
      cases hts
    | ok cs =>
      rw [hcs] at hts
      obtain rfl := Except.ok.inj hts
      exact ⟨_, rfl, rfl⟩
  ends := by
    intro n h
    rw [listing] at h
    cases hcs : chunks ranges code with
    | ok cs =>
      rw [hcs] at h
      cases h
    | error e =>
      rw [hcs] at h
      obtain rfl : e = .endOfCode n := Except.error.inj h
      have hcut : Chunk.cut ranges 0 0 (code.drop 0) = .error (.endOfCode n) := hcs
      obtain ⟨o, ho, hfirst⟩ := Chunk.exists_first_error hcut
      exact Chunk.endOfCode_le ho hfirst
  covered := by
    intro ts lines hts hlines
    rw [listLines_eq] at hlines
    cases hcs : chunks ranges code with
    | error e =>
      rw [hcs] at hlines
      cases hlines
    | ok cs =>
      rw [hcs] at hlines
      have hcut : Chunk.cut ranges 0 0 (code.drop 0) = .ok cs := hcs
      obtain ⟨htiled, hstands⟩ := Chunk.tiled_cut (Nat.zero_le _) hcut
      exact ⟨cs, rfl, htiled, hstands, (Except.ok.inj hlines).symm⟩
  numbered := by
    intro cs _ o i size t hmem
    have ht : t ∈ cs.filterMap Chunk.target? := List.mem_filterMap.2 ⟨_, hmem, rfl⟩
    simp only [Chunk.text, name?_unnamed, if_pos ht, Option.getD_some, labelOf]

/-- Stretches of data that are empty, overlap, stand in no order and reach past the end. -/
example : (listing unnamed [⟨2, 9⟩, ⟨0, 0⟩, ⟨1, 3⟩] [0xC3, 0x41, 0x42, 0x43]).toOption =
    some "0000: ret\n0001: .ascii \"AB\"\n0003: .ascii \"C\"" := by
  decide +kernel

end RegisterCompiler.X64
