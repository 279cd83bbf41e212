import RegisterCompiler.Proofs.Assembly.ReadBack
import RegisterCompiler.Proofs.Listing.Names

/-!
# The labels of a listing

What an instruction of a listing refers to is shown by a name, and a label line with that name stands directly before the line of
the target (`Compiled.Labelled`). That line is the only one with the name unless the name is given twice, by the source to a
procedure and by the listing to an offset without a name (`Compiled.DoublyNamed`): labels are numbered without a look at the
procedures, and a procedure may be called `L1`. So the label lines of a listing are not always unambiguous
(`not_unambiguous_twice`), and exactly these names are to blame (`labelled_of_compileSource`).
-/

namespace RegisterCompiler

open X64 (Chunk)

/-! ## Lines and names -/

/-- The name that a listing of chunks shows for an offset. -/
def Compiled.shown? (c : Compiled) (cs : List Chunk) : Nat → Option String := X64.name? c.nameOf? (X64.targets cs)

/-- The lines of a listing of chunks. -/
def Compiled.lines (c : Compiled) (cs : List Chunk) : List String := cs.flatMap (Chunk.lines (c.shown? cs))

/-- A name that a procedure has and that an offset without a name of its own has for its label. -/
def Compiled.DoublyNamed (c : Compiled) (cs : List Chunk) (name : String) : Prop :=
  name ∈ c.procedures.map Prod.fst ∧
    ∃ t ∈ cs.filterMap Chunk.target?, c.nameOf? t = none ∧ name = X64.labelOf (cs.filterMap Chunk.target?) t

/-- The names of a listing are those of procedures and of the entry, and the labels of the other targets. -/
theorem Compiled.shown?_eq_some_iff (c : Compiled) (cs : List Chunk) {offset : Nat} {name : String} :
    c.shown? cs offset = some name ↔ c.nameOf? offset = some name ∨
      c.nameOf? offset = none ∧ offset ∈ cs.filterMap Chunk.target? ∧
        name = X64.labelOf (cs.filterMap Chunk.target?) offset := by
  have hlabel : X64.label? (X64.targets cs) offset = _ := X64.name?_unnamed cs offset
  unfold shown? X64.name?
  cases hname : c.nameOf? offset with
  | some own => simp
  | none =>
    rw [hlabel]
    by_cases hmem : offset ∈ cs.filterMap Chunk.target?
    · rw [if_pos hmem]
      simp only [Option.some.injEq, reduceCtorEq, false_or, true_and, hmem]
      exact eq_comm
    · rw [if_neg hmem]
      simp only [reduceCtorEq, false_or, true_and, hmem, false_and]

/-- A label is a word. -/
theorem isWordText_labelOf (ts : List Nat) (offset : Nat) : IsWordText (X64.labelOf ts offset) := by
  intro c hc
  rw [X64.labelOf, String.toList_append, List.mem_append] at hc
  rcases hc with hc | hc
  · obtain rfl : c = 'L' := by simpa using hc
    decide
  · rw [Nat.toString_eq_ofList_toDigits, String.toList_ofList] at hc
    exact isWordChar_of_isDigit (Nat.isDigit_of_mem_toDigits (by decide) (by decide) hc)

/-! ## Counting label lines -/

/-- A chunk has one label line if its offset has a name. A line that shows the chunk has a blank, and a name has none. -/
theorem count_lines {name? : Nat → Option String} {name : String} (hname : ' ' ∉ name.toList) (c : Chunk) :
    (c.lines name?).count (name ++ ":") = if name? c.offset = some name then 1 else 0 := by
  have hline : hexOffset c.offset ++ ": " ++ c.text name? ≠ name ++ ":" := by
    intro h
    have hspace : ' ' ∈ (hexOffset c.offset ++ ": " ++ c.text name?).toList := by simp
    rw [h] at hspace
    simp [hname] at hspace
  unfold Chunk.lines
  cases hown : name? c.offset with
  | none => simp [hline]
  | some own =>
    by_cases heq : own = name
    · simp [hline, heq]
    · have hlabel : own ++ ":" ≠ name ++ ":" := fun h => heq ((String.append_left_inj ":").1 h)
      simp [hline, heq, hlabel]

/-- There are as many label lines with a name as chunks at offsets of that name. -/
theorem count_flatMap_lines {name? : Nat → Option String} {name : String} (hname : ' ' ∉ name.toList) (cs : List Chunk) :
    (cs.flatMap (Chunk.lines name?)).count (name ++ ":") = (cs.map Chunk.offset).countP fun o => name? o = some name := by
  induction cs with
  | nil => rfl
  | cons c rest ih =>
    rw [List.flatMap_cons, List.count_append, ih, count_lines hname, List.map_cons, List.countP_cons, Nat.add_comm]
    simp only [decide_eq_true_eq]

/-- What holds of one element of a list without repetition holds of one place only if it holds of no other element. -/
theorem countP_eq_one_iff {α : Type} {l : List α} (hl : l.Nodup) {p : α → Bool} {a : α} (ha : a ∈ l) (hp : p a = true) :
    l.countP p = 1 ↔ ∀ b ∈ l, p b = true → b = a := by
  rw [List.countP_eq_length_filter, List.length_eq_one_iff]
  have hmem : a ∈ l.filter p := List.mem_filter.2 ⟨ha, hp⟩
  constructor
  · rintro ⟨x, hx⟩ b hb hpb
    have hb' : b ∈ l.filter p := List.mem_filter.2 ⟨hb, hpb⟩
    rw [hx, List.mem_singleton] at hmem hb'
    rw [hb', hmem]
  · intro hall
    refine ⟨a, ?_⟩
    have hsub : ∀ b ∈ l.filter p, b = a := by
      intro b hb
      obtain ⟨hbl, hpb⟩ := List.mem_filter.1 hb
      exact hall b hbl hpb
    rw [List.eq_replicate_of_mem hsub]
    have hle : (l.filter p).length ≤ 1 := by
      have hnodup := hl.filter p
      rw [List.eq_replicate_of_mem hsub] at hnodup
      exact List.nodup_replicate.1 hnodup
    have hpos := List.length_pos_of_mem hmem
    rw [show (l.filter p).length = 1 by omega]
    rfl

/-- Chunks that follow one another have at least a byte each and lie between the two ends. -/
theorem Tiled.within {start stop : Nat} {cs : List Chunk} (h : Tiled start cs stop) :
    ∀ c ∈ cs, start ≤ c.offset ∧ 0 < c.size ∧ c.offset + c.size ≤ stop := by
  induction cs generalizing start with
  | nil => exact fun c hc => absurd hc List.not_mem_nil
  | cons c rest ih =>
    obtain ⟨rfl, hpos, hrest⟩ := h
    have hbounds := ih hrest
    have hstop : c.offset + c.size ≤ stop := by
      cases rest with
      | nil => exact Nat.le_of_eq hrest
      | cons d _ =>
        have := hbounds d (.head _)
        omega
    refine List.forall_mem_cons.2 ⟨⟨le_rfl, hpos, hstop⟩, fun d hd => ?_⟩
    have := hbounds d hd
    omega

/-- Chunks that follow one another have different offsets. -/
theorem Tiled.nodup {start stop : Nat} {cs : List Chunk} (h : Tiled start cs stop) : (cs.map Chunk.offset).Nodup := by
  induction cs generalizing start with
  | nil => exact .nil
  | cons c rest ih =>
    obtain ⟨rfl, hpos, hrest⟩ := h
    refine List.nodup_cons.2 ⟨fun hmem => ?_, ih hrest⟩
    obtain ⟨d, hd, hoffset⟩ := List.mem_map.1 hmem
    have := (hrest.within d hd).1
    omega

/-- Behind a chunk another one begins, or the code ends. -/
theorem Tiled.exists_next {start stop : Nat} {cs : List Chunk} (h : Tiled start cs stop) {c : Chunk} (hc : c ∈ cs) :
    c.offset + c.size = stop ∨ ∃ d ∈ cs, d.offset = c.offset + c.size := by
  induction cs generalizing start with
  | nil => exact absurd hc List.not_mem_nil
  | cons d rest ih =>
    obtain ⟨rfl, -, hrest⟩ := h
    rcases List.mem_cons.1 hc with rfl | hc
    · cases rest with
      | nil => exact Or.inl hrest
      | cons e _ => exact Or.inr ⟨e, .tail _ (.head _), hrest.1⟩
    · rcases ih hrest hc with hstop | ⟨e, he, hoffset⟩
      · exact Or.inl hstop
      · exact Or.inr ⟨e, .tail _ he, hoffset⟩

/-! ## Targets are shown -/

/-- A stretch of data does not end before it starts. -/
theorem start_le_stop_of_mem_dataRanges {offset : Nat} {items : List X64.Item} {r : X64.ByteRange}
    (h : r ∈ X64.dataRanges offset items) : r.start ≤ r.stop := by
  induction items generalizing offset with
  | nil => exact absurd h List.not_mem_nil
  | cons item rest ih =>
    cases item with
    | data bytes =>
      rcases List.mem_cons.1 h with rfl | h
      · exact Nat.le_add_right _ _
      · exact ih h
    | instruction i => exact ih h
    | hole kind => exact ih h

/-- Every target is the offset of a chunk: that of an instruction, or of a text, or, where the text is empty, of what stands
behind it. -/
theorem Compiled.Intact.exists_chunk {c : Compiled} {cs : List Chunk} (h : c.Intact cs)
    (hdata : ∀ r ∈ c.code.data, r.start ≤ r.stop) {o size t : Nat} {i : X64.Instruction}
    (hmem : .instruction o i size (some t) ∈ cs) : ∃ d ∈ cs, d.offset = t := by
  cases haddress : i.isAddress with
  | false =>
    obtain ⟨i', size', target', hmem'⟩ := h.targets o i size t hmem haddress
    exact ⟨_, hmem', rfl⟩
  | true =>
    obtain ⟨r, hr, rfl, hcall⟩ := h.addresses o i size t hmem haddress
    obtain ⟨jump, d, width, hjump, hstart⟩ := h.fenced r hr
    rcases h.tiled.exists_next hjump with hend | ⟨next, hnext, hoffset⟩
    · -- the call of the host stands behind the text, so the code does not end before it
      obtain ⟨-, hpos, hbehind⟩ := h.tiled.within _ hmem
      have hrange := hdata r hr
      simp only [Chunk.offset, Chunk.size] at hend hpos hbehind
      omega
    · exact ⟨next, hnext, hoffset.trans hstart⟩

/-! ## One label line for each name -/

namespace Compiled

variable {c : Compiled} {cs : List Chunk} {offset t : Nat} {name : String}

/-- No name of a listing has a blank. -/
theorem Named.space_not_mem_shown (h : c.Named) (hname : c.shown? cs offset = some name) : ' ' ∉ name.toList := by
  rcases (c.shown?_eq_some_iff cs).1 hname with hown | ⟨-, -, rfl⟩
  · exact h.space_not_mem hown
  · intro hspace
    exact absurd (isWordText_labelOf _ _ ' ' hspace) (by decide)

/-- Two offsets of one name are the same, or the name was given twice. -/
theorem Named.eq_or_doublyNamed (h : c.Named) (hoffset : c.shown? cs offset = some name) (ht : c.shown? cs t = some name) :
    offset = t ∨ c.DoublyNamed cs name := by
  -- a procedure of the name, since a label is not what the entry is called
  have hprocedure : ∀ {o u : Nat}, c.nameOf? o = some name → c.nameOf? u = none → u ∈ cs.filterMap Chunk.target? →
      name = X64.labelOf (cs.filterMap Chunk.target?) u → c.DoublyNamed cs name := by
    intro o u hown hnone hu hlabel
    rcases h.nameOf?_eq_some_iff.1 hown with ⟨-, hentry⟩ | hmem
    · have hword : IsWordText "<entry>" := by
        rw [← hentry, hlabel]
        exact isWordText_labelOf _ _
      exact absurd hword not_isWordText_entry
    · exact ⟨List.mem_map_of_mem hmem, u, hu, hnone, hlabel⟩
  rcases (c.shown?_eq_some_iff cs).1 hoffset with hown | ⟨hnone, hmem, hlabel⟩ <;>
    rcases (c.shown?_eq_some_iff cs).1 ht with hown' | ⟨hnone', hmem', hlabel'⟩
  · exact Or.inl (h.injective hown hown')
  · exact Or.inr (hprocedure hown hnone' hmem' hlabel')
  · exact Or.inr (hprocedure hown' hnone hmem hlabel)
  · exact Or.inl (X64.eq_of_labelOf_eq hmem hmem' (hlabel.symm.trans hlabel'))

/-- A name that is given to one offset only has one label line. -/
theorem Named.count_eq_one_iff (h : c.Named) (hnodup : (cs.map Chunk.offset).Nodup)
    (hprocedures : ∀ b ∈ c.procedures, b.2 ∈ cs.map Chunk.offset)
    (htargets : ∀ u ∈ cs.filterMap Chunk.target?, u ∈ cs.map Chunk.offset)
    (ht : t ∈ cs.filterMap Chunk.target?) (hname : c.shown? cs t = some name) :
    (c.lines cs).count (name ++ ":") = 1 ↔ ¬c.DoublyNamed cs name := by
  rw [lines, count_flatMap_lines (h.space_not_mem_shown hname),
    countP_eq_one_iff hnodup (htargets t ht) (decide_eq_true hname)]
  simp only [decide_eq_true_eq]
  constructor
  · rintro honly ⟨hprocedure, u, hu, hnone, hlabel⟩
    obtain ⟨b, hb, rfl⟩ := List.mem_map.1 hprocedure
    have hown : c.nameOf? b.2 = some b.1 := h.nameOf?_eq_some_iff.2 (.inr hb)
    have hb' : b.2 = t := honly b.2 (hprocedures b hb) ((c.shown?_eq_some_iff cs).2 (.inl hown))
    have hu' : u = t := honly u (htargets u hu) ((c.shown?_eq_some_iff cs).2 (.inr ⟨hnone, hu, hlabel⟩))
    rw [hu', ← hb', hown] at hnone
    cases hnone
  · intro hsingle offset _ hoffset
    exact (h.eq_or_doublyNamed hoffset hname).resolve_right hsingle

/-- A label line stands directly before the line of its chunk. -/
theorem exists_label_line {d : Chunk} (hd : d ∈ cs) (hname : c.shown? cs d.offset = some name) :
    ∃ before text behind, c.lines cs = before ++ (name ++ ":") :: (hexOffset d.offset ++ ": " ++ text) :: behind := by
  obtain ⟨front, back, rfl⟩ := List.append_of_mem hd
  obtain ⟨cs, hcs⟩ : ∃ cs, cs = front ++ d :: back := ⟨_, rfl⟩
  rw [← hcs] at hname ⊢
  refine ⟨front.flatMap (Chunk.lines (c.shown? cs)), d.text (c.shown? cs), back.flatMap (Chunk.lines (c.shown? cs)), ?_⟩
  have hlines : d.lines (c.shown? cs) = [name ++ ":", hexOffset d.offset ++ ": " ++ d.text (c.shown? cs)] := by
    unfold Chunk.lines
    simp only [hname]
  rw [lines]
  nth_rewrite 2 [hcs]
  rw [List.flatMap_append, List.flatMap_cons, hlines]
  rfl

/-! ## The labels of a compiled source -/

/-- The lines of a listing, and what stands for the targets in them. -/
structure Labelled (c : Compiled) (cs : List Chunk) : Prop where
  cut : X64.chunks c.code.data c.code.bytes = .ok cs
  listed : c.listing = .ok (String.intercalate "\n" (c.lines cs))
  /-- A target is shown by a name, the name has a label line directly before the line of the target, and that is its only label line
  unless the name is given twice. -/
  defined : ∀ o i size t, .instruction o i size (some t) ∈ cs → ∃ name,
    Chunk.text (c.shown? cs) (.instruction o i size (some t)) = i.text name ∧
    (∃ before text behind, c.lines cs = before ++ (name ++ ":") :: (hexOffset t ++ ": " ++ text) :: behind) ∧
    ((c.lines cs).count (name ++ ":") = 1 ↔ ¬c.DoublyNamed cs name)

/-- Every name that a listing refers to has one label line, directly before the line of the target. -/
def Unambiguous (c : Compiled) : Prop :=
  ∃ cs, X64.chunks c.code.data c.code.bytes = .ok cs ∧ c.listing = .ok (String.intercalate "\n" (c.lines cs)) ∧
    ∀ o i size t, .instruction o i size (some t) ∈ cs → ∃ name,
      Chunk.text (c.shown? cs) (.instruction o i size (some t)) = i.text name ∧
      (∃ before text behind, c.lines cs = before ++ (name ++ ":") :: (hexOffset t ++ ": " ++ text) :: behind) ∧
      (c.lines cs).count (name ++ ":") = 1

end Compiled

/-- The listing of a table whose names are words. -/
theorem ProcedureTable.labelled_of_twoPass {table : ProcedureTable} {intrinsics : Intrinsics} {c : Compiled}
    (hwords : ∀ name ∈ table.names, IsWordText name) (h : table.twoPass intrinsics = some c) :
    c.Labelled (chunksOf 0 (table.pieces intrinsics)) := by
  obtain ⟨cs, hcs⟩ : ∃ cs, cs = chunksOf 0 (table.pieces intrinsics) := ⟨_, rfl⟩
  have hintact := intact_of_twoPass h
  have hnamed := named_of_twoPass hwords h
  have hbegins := exists_chunk_of_procedure h
  have hdata : ∀ r ∈ c.code.data, r.start ≤ r.stop := by
    intro r hr
    rw [(eq_of_twoPass h).2] at hr
    exact start_le_stop_of_mem_dataRanges hr
  rw [← hcs] at hintact hbegins ⊢
  have hprocedures : ∀ b ∈ c.procedures, b.2 ∈ cs.map Chunk.offset := by
    intro b hb
    obtain ⟨d, hd, hoffset⟩ := hbegins b hb
    exact List.mem_map.2 ⟨d, hd, hoffset⟩
  have htargets : ∀ t ∈ cs.filterMap Chunk.target?, t ∈ cs.map Chunk.offset := by
    intro t ht
    obtain ⟨d, hd, htarget⟩ := List.mem_filterMap.1 ht
    cases d with
    | data o bytes => cases htarget
    | instruction o i size target =>
      obtain rfl : target = some t := htarget
      obtain ⟨e, he, hoffset⟩ := hintact.exists_chunk hdata hd
      exact List.mem_map.2 ⟨e, he, hoffset⟩
  constructor
  case cut => exact hintact.cut
  case listed =>
    unfold Compiled.listing X64.Code.listing X64.listing
    rw [ite_self, hintact.cut]
    rfl
  case defined =>
    intro o i size t hmem
    have ht : t ∈ cs.filterMap Chunk.target? := List.mem_filterMap.2 ⟨_, hmem, rfl⟩
    -- a target has a name of its own, or else a number among the targets
    obtain ⟨name, hname⟩ : ∃ name, c.shown? cs t = some name := by
      cases hown : c.nameOf? t with
      | some own => exact ⟨own, (c.shown?_eq_some_iff cs).2 (.inl hown)⟩
      | none => exact ⟨_, (c.shown?_eq_some_iff cs).2 (.inr ⟨hown, ht, rfl⟩)⟩
    refine ⟨name, ?_, ?_, hnamed.count_eq_one_iff hintact.tiled.nodup hprocedures htargets ht hname⟩
    · simp only [Chunk.text, hname, Option.getD_some]
    · obtain ⟨d, hd, rfl⟩ := List.mem_map.1 (htargets t ht)
      exact Compiled.exists_label_line hd hname

/-- What a listing of a compiled source refers to has a label line where it stands, and no other one but for the names that are
given both to a procedure and to another offset. -/
theorem labelled_of_compileSource {source : List UInt8} {intrinsics : Intrinsics} {c : Compiled}
    (h : compileSource source intrinsics = .ok c) : ∃ cs, c.Labelled cs := by
  unfold compileSource at h
  cases htable : parseSource source with
  | error e =>
    rw [htable] at h
    cases h
  | ok table =>
    rw [htable] at h
    cases hcompile : table.compile intrinsics with
    | error e =>
      simp only [hcompile] at h
      cases h
    | ok compiled =>
      simp only [hcompile] at h
      obtain rfl : compiled = c := Except.ok.inj h
      exact ⟨_, ProcedureTable.labelled_of_twoPass (isWordText_of_parseSource htable) (ProcedureTable.compile_cases hcompile).2⟩

/-- A token on the first line, so many bytes from an offset on. -/
def firstLine {kind : TokenKind} (offset : Nat) (lexeme : String) : Grammar.Terminal kind :=
  ⟨⟨⟨offset, 1, offset + 1⟩, ⟨offset + lexeme.utf8ByteSize, 1, offset + lexeme.utf8ByteSize + 1⟩⟩, lexeme⟩

/-- A source whose second procedure is called as the guard's target is labelled. -/
def twiceSource : String := "proc main \x7b rax = 1 if rbx == 1; \x7d proc L1 \x7b \x7d"

/-- The number one can be written. -/
theorem one_lt_literalBound : 1 < 0x8000000000000000 := by decide

/-- The number one as a token has it. -/
def oneLiteral : Fin 0x8000000000000000 := ⟨1, one_lt_literalBound⟩

/-- How the grammar derives it. -/
def twiceDerivation : Grammar.Program := [
  { keyword := firstLine 0 "proc"
    name := "main"
    identifier := firstLine 5 "main"
    opening := firstLine 10 "\x7b"
    body := [
      .action
        (.assign (firstLine 12 "rax" : Grammar.Terminal (.register .rax)) (firstLine 16 "=")
          (.number (n := oneLiteral) (firstLine 18 "1")))
        (.guarded (firstLine 20 "if")
          ⟨.register (r := .rbx) (firstLine 23 "rbx"), (firstLine 27 "==" : Grammar.Terminal (.symbol (.comparison .equal))),
            .number (n := oneLiteral) (firstLine 30 "1")⟩
          (firstLine 31 ";"))]
    closing := firstLine 33 "\x7d" },
  { keyword := firstLine 35 "proc"
    name := "L1"
    identifier := firstLine 40 "L1"
    opening := firstLine 43 "\x7b"
    body := []
    closing := firstLine 45 "\x7d" }]

/-- The program of the source. -/
def twiceTable : ProcedureTable := ⟨twiceDerivation.trees, by decide⟩

/-- The source `twiceSource` compiles to the code of its table. -/
theorem compileSource_twice :
    ∃ c, twiceTable.compile ⟨1, 2⟩ = .ok c ∧ compileSource (utf8Bytes twiceSource) ⟨1, 2⟩ = .ok c := by
  obtain ⟨tokens, htokens⟩ : ∃ tokens, tokens = twiceDerivation.tokens ++ [⟨.endOfInput, Span.point ⟨46, 1, 47⟩, ""⟩] := ⟨_, rfl⟩
  have htokenize : tokenize (utf8Bytes twiceSource) = .ok tokens := by
    rw [htokens]
    decide +kernel
  have hderived : twiceDerivation.tokens = beforeEnd tokens := by
    rw [htokens]
    decide +kernel
  have hparse : parseSource (utf8Bytes twiceSource) = .ok twiceTable :=
    parseSource_of_derivation tokens htokenize hderived twiceTable.names_nodup
  have hok : (twiceTable.compile ⟨1, 2⟩).isOk = true := by decide +kernel
  rw [compileSource, hparse]
  cases hcompile : twiceTable.compile ⟨1, 2⟩ with
  | error e =>
    rw [hcompile] at hok
    cases hok
  | ok c =>
    refine ⟨c, rfl, ?_⟩
    simp only [hcompile]
    rfl

/-- The listing of `twiceSource` has its labels where they belong. -/
theorem labelled_of_compileSource_twice :
    ∃ c, compileSource (utf8Bytes twiceSource) ⟨1, 2⟩ = .ok c ∧ ∃ cs, c.Labelled cs := by
  obtain ⟨c, -, hc⟩ := compileSource_twice
  exact ⟨c, hc, labelled_of_compileSource hc⟩

/-- In the listing of a compiled source one name can have two label lines. -/
theorem not_unambiguous_twice : ∃ c, compileSource (utf8Bytes twiceSource) ⟨1, 2⟩ = .ok c ∧ ¬c.Unambiguous := by
  obtain ⟨c, hcompile, hc⟩ := compileSource_twice
  refine ⟨c, hc, ?_⟩
  rintro ⟨cs, hcut, -, hreferences⟩
  have hlisting : ((twiceTable.compile ⟨1, 2⟩).toOption.bind fun c =>
      (X64.chunks c.code.data c.code.bytes).toOption.map fun cs =>
        (cs[1]?, c.shown? cs 20, (c.lines cs).count "L1:")) =
      some (some (.instruction 4 (.branch .notEqual 10) 6 (some 20)), some "L1", 2) := by decide +kernel
  rw [hcompile] at hlisting
  simp only [Except.toOption, Option.bind_some, hcut, Option.map_some, Option.some.injEq, Prod.mk.injEq] at hlisting
  obtain ⟨hjump, hshown, htwo⟩ := hlisting
  obtain ⟨name, htext, -, hone⟩ := hreferences 4 (.branch .notEqual 10) 6 20 (List.mem_of_getElem? hjump)
  simp only [Chunk.text, hshown, Option.getD_some, X64.Instruction.text] at htext
  obtain rfl : "L1" = name := by simpa using htext
  rw [show "L1" ++ ":" = "L1:" from rfl, htwo] at hone
  exact absurd hone (by decide)

end RegisterCompiler
