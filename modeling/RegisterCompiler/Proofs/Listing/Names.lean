import RegisterCompiler.Proofs.ControlFlow.Integrity
import RegisterCompiler.Proofs.Joining.Programs

/-!
# The names of a compiled source

An identifier is a word, so a procedure of a source is never called `<entry>`. The procedures of a source have different names and
begin at different offsets, all of them before the entry, so an offset has one name at most and a name belongs to one offset
(`Compiled.Named`, `Compiled.Named.injective`).
-/

namespace RegisterCompiler

open X64 (Chunk)

/-! ## Identifiers -/

/-- The characters of a word. -/
def IsWordText (text : String) : Prop := ∀ c ∈ text.toList, isWordChar c = true

instance (text : String) : Decidable (IsWordText text) := List.decidableBAll (fun c => isWordChar c = true) text.toList

/-- The name of the entry is not that of a procedure: no word has a bracket. -/
theorem not_isWordText_entry : ¬IsWordText "<entry>" := by
  intro h
  exact absurd (h '<' (by decide)) (by decide)

/-- No reserved word is an identifier. -/
theorem ofWord?_ne_identifier (word name : String) : TokenKind.ofWord? word ≠ some (.identifier name) := by
  intro h
  unfold TokenKind.ofWord? at h
  cases hk : Keyword.ofWord? word with
  | some k =>
    rw [hk] at h
    cases h
  | none =>
    cases hr : Register.ofName? word with
    | some r =>
      rw [hk, hr] at h
      cases h
    | none =>
      rw [hk, hr] at h
      obtain ⟨n, -, hn⟩ := Option.map_eq_some_iff.1 h
      cases hn

/-- An identifier that is read is a word. -/
theorem Fits.isWordText {name : String} {first : UInt8} {more rest : List UInt8} (h : Fits (.identifier name) first more rest) :
    IsWordText name := by
  generalize hkind : TokenKind.identifier name = kind at h
  cases h with
  | word hfirst hmore _ =>
    cases hword : TokenKind.ofWord? (asciiText (first :: more)) with
    | some k =>
      rw [hword, Option.getD_some] at hkind
      exact absurd (hkind ▸ hword) (ofWord?_ne_identifier _ _)
    | none =>
      rw [hword, Option.getD_none] at hkind
      obtain rfl := TokenKind.identifier.inj hkind
      intro c hc
      rw [asciiText, String.toList_ofList] at hc
      obtain ⟨b, hb, rfl⟩ := List.mem_map.1 hc
      have hbyte : isWordByte b = true := by
        rcases List.mem_cons.1 hb with rfl | hb
        · exact isWordByte_of_isWordStart hfirst
        · exact hmore b hb
      exact (isWordChar_charOfByte b).trans hbyte
  | _ => cases hkind

/-- The identifiers of an accepted source are words. -/
theorem Consists.isWordText {p : Position} {bytes : List UInt8} {tokens : List Token} (h : Consists p bytes tokens) :
    ∀ t ∈ tokens, ∀ name, t.kind = .identifier name → IsWordText name := by
  induction h with
  | ended => simp
  | token _ hfits _ ih =>
    refine List.forall_mem_cons.2 ⟨?_, ih⟩
    rintro name rfl
    exact hfits.isWordText

/-- The procedures of a source are called by words. -/
theorem isWordText_of_parseSource {source : List UInt8} {table : ProcedureTable} (h : parseSource source = .ok table) :
    ∀ name ∈ table.names, IsWordText name := by
  obtain ⟨tokens, program, htokens, hprogram, htrees⟩ := exists_derivation_of_parseSource h
  intro name hname
  rw [ProcedureTable.names, ← htrees, map_name_trees] at hname
  obtain ⟨d, hd, rfl⟩ := List.mem_map.1 hname
  have hidentifier : d.identifier.token ∈ program.tokens := by
    refine List.mem_flatMap.2 ⟨d, hd, ?_⟩
    rw [Grammar.Procedure.tokens]
    exact .tail _ (.head _)
  have hmem : d.identifier.token ∈ tokens := (List.takeWhile_prefix _).subset (hprogram ▸ hidentifier)
  exact (Consists.of_tokens htokens).isWordText _ hmem d.name rfl

mutual

/-- A name that is called is an identifier in the source. -/
theorem Grammar.Statement.exists_identifier (d : Grammar.Statement) :
    ∀ name ∈ d.tree.calls, ∃ t ∈ d.tokens, t.kind = .identifier name := by
  intro name hname
  cases d with
  | action a ending =>
    cases a with
    | call identifier =>
      obtain rfl := List.mem_singleton.1 hname
      exact ⟨identifier.token, .head _, rfl⟩
    | _ => exact absurd hname List.not_mem_nil
  | loop head opening body closing =>
    obtain ⟨t, ht, hkind⟩ := Grammar.exists_identifier_body body name hname
    exact ⟨t, by simp [Grammar.Statement.tokens, ht], hkind⟩
  | branch head opening body closing =>
    have hname : name ∈ bodyCalls (Grammar.bodyTrees body) := (List.mem_append.1 hname).resolve_right List.not_mem_nil
    obtain ⟨t, ht, hkind⟩ := Grammar.exists_identifier_body body name hname
    exact ⟨t, by simp [Grammar.Statement.tokens, ht], hkind⟩
  | branchElse head opening body closing otherwise elseOpening elseBody elseClosing =>
    rcases List.mem_append.1 hname with hname | hname
    · obtain ⟨t, ht, hkind⟩ := Grammar.exists_identifier_body body name hname
      exact ⟨t, by simp [Grammar.Statement.tokens, ht], hkind⟩
    · obtain ⟨t, ht, hkind⟩ := Grammar.exists_identifier_body elseBody name hname
      exact ⟨t, by simp [Grammar.Statement.tokens, ht], hkind⟩

/-- A body calls only what an identifier of it names. -/
theorem Grammar.exists_identifier_body (ds : List Grammar.Statement) :
    ∀ name ∈ bodyCalls (Grammar.bodyTrees ds), ∃ t ∈ Grammar.bodyTokens ds, t.kind = .identifier name := by
  intro name hname
  cases ds with
  | nil => exact absurd hname List.not_mem_nil
  | cons d rest =>
    rcases List.mem_append.1 hname with hname | hname
    · obtain ⟨t, ht, hkind⟩ := Grammar.Statement.exists_identifier d name hname
      exact ⟨t, List.mem_append_left _ ht, hkind⟩
    · obtain ⟨t, ht, hkind⟩ := Grammar.exists_identifier_body rest name hname
      exact ⟨t, List.mem_append_right _ ht, hkind⟩

end

/-- The procedures that a source calls are called by words, as its own are. -/
theorem isWordText_calls_of_parseSource {source : List UInt8} {table : ProcedureTable} (h : parseSource source = .ok table) :
    ∀ name ∈ table.names ++ table.calls, IsWordText name := by
  obtain ⟨tokens, program, htokens, hprogram, htrees⟩ := exists_derivation_of_parseSource h
  refine List.forall_mem_append.2 ⟨isWordText_of_parseSource h, List.forall_mem_append.2 ⟨fun name hname => ?_, ?_⟩⟩
  · obtain ⟨p, hp, hname⟩ := List.mem_flatMap.1 hname
    rw [← htrees] at hp
    obtain ⟨d, hd, rfl⟩ := List.mem_map.1 hp
    obtain ⟨t, ht, hkind⟩ := Grammar.exists_identifier_body d.body name hname
    have hprocedure : t ∈ d.tokens := by simp [Grammar.Procedure.tokens, ht]
    have hmem : t ∈ program.tokens := List.mem_flatMap.2 ⟨d, hd, hprocedure⟩
    rw [hprogram] at hmem
    exact (Consists.of_tokens htokens).isWordText t ((List.takeWhile_prefix _).subset hmem) name hkind
  · exact List.forall_mem_singleton.2 (by decide)

/-! ## Procedures and their offsets -/

/-- A procedure has at least its return. -/
theorem Procedure.size_pos (intrinsics : Intrinsics) (p : Procedure) : 0 < p.size intrinsics := Nat.succ_pos _

/-- Procedures begin one behind the other. -/
theorem pairwise_procedureOffsets (intrinsics : Intrinsics) (start : Nat) (ps : List Procedure) :
    ((procedureOffsets intrinsics start ps).map Prod.snd).Pairwise (· < ·) ∧
      ∀ b ∈ procedureOffsets intrinsics start ps, start ≤ b.2 ∧ b.2 < start + proceduresSize intrinsics ps := by
  induction ps generalizing start with
  | nil => exact ⟨.nil, nofun⟩
  | cons p rest ih =>
    obtain ⟨hpairwise, hbounds⟩ := ih (start + p.size intrinsics)
    have hpos := p.size_pos intrinsics
    have hsize : proceduresSize intrinsics (p :: rest) = p.size intrinsics + proceduresSize intrinsics rest := by
      simp [proceduresSize]
    rw [procedureOffsets, List.map_cons]
    refine ⟨List.pairwise_cons.2 ⟨?_, hpairwise⟩, List.forall_mem_cons.2 ⟨?_, ?_⟩⟩
    · intro offset hoffset
      obtain ⟨b, hb, rfl⟩ := List.mem_map.1 hoffset
      have := (hbounds b hb).1
      omega
    · simp only
      omega
    · intro b hb
      have := hbounds b hb
      omega

/-- The procedures of a program have names and offsets that belong together. -/
structure Compiled.Named (c : Compiled) : Prop where
  words : ∀ b ∈ c.procedures, IsWordText b.1
  names : (c.procedures.map Prod.fst).Nodup
  offsets : (c.procedures.map Prod.snd).Nodup
  /-- No procedure begins where the host enters. -/
  entry : ∀ b ∈ c.procedures, b.2 ≠ c.entry

namespace Compiled.Named

variable {c : Compiled} {offset offset' : Nat} {name : String}

/-- An offset is called by the procedure that begins there. -/
theorem nameOf?_eq_some_iff (h : c.Named) :
    c.nameOf? offset = some name ↔ (offset = c.entry ∧ name = "<entry>") ∨ (name, offset) ∈ c.procedures := by
  unfold nameOf?
  by_cases hentry : offset = c.entry
  · rw [if_pos hentry, Option.some.injEq]
    constructor
    · rintro rfl
      exact Or.inl ⟨hentry, rfl⟩
    · rintro (⟨-, rfl⟩ | hmem)
      · rfl
      · exact absurd hentry (h.entry _ hmem)
  · rw [if_neg hentry]
    constructor
    · intro hname
      obtain ⟨b, hfind, rfl⟩ := Option.map_eq_some_iff.1 hname
      have hoffset : b.2 = offset := by simpa using List.find?_some hfind
      right
      rw [← hoffset]
      exact List.mem_of_find?_eq_some hfind
    · rintro (⟨hentry', -⟩ | hmem)
      · exact absurd hentry' hentry
      · cases hfind : c.procedures.find? fun p => p.2 == offset with
        | none => exact absurd (List.find?_eq_none.1 hfind _ hmem) (by simp)
        | some b =>
          have hoffset : b.2 = offset := by simpa using List.find?_some hfind
          obtain rfl := List.inj_on_of_nodup_map h.offsets (List.mem_of_find?_eq_some hfind) hmem hoffset
          rfl

/-- A name belongs to one offset. -/
theorem injective (h : c.Named) (hname : c.nameOf? offset = some name) (hname' : c.nameOf? offset' = some name) :
    offset = offset' := by
  rw [h.nameOf?_eq_some_iff] at hname hname'
  rcases hname with ⟨rfl, rfl⟩ | hmem <;> rcases hname' with ⟨rfl, hentry⟩ | hmem'
  · rfl
  · exact absurd (h.words _ hmem') not_isWordText_entry
  · exact absurd (hentry ▸ h.words _ hmem) not_isWordText_entry
  · exact congrArg Prod.snd (List.inj_on_of_nodup_map h.names hmem hmem' rfl)

/-- A name has no blank. -/
theorem space_not_mem (h : c.Named) (hname : c.nameOf? offset = some name) : ' ' ∉ name.toList := by
  rcases h.nameOf?_eq_some_iff.1 hname with ⟨-, rfl⟩ | hmem
  · decide
  · intro hspace
    exact absurd (h.words _ hmem ' ' hspace) (by decide)

end Compiled.Named

namespace ProcedureTable

variable {table : ProcedureTable} {intrinsics : Intrinsics} {c : Compiled}

/-- The program of a table whose names are words. -/
theorem named_of_twoPass (hwords : ∀ name ∈ table.names, IsWordText name) (h : table.twoPass intrinsics = some c) : c.Named := by
  obtain ⟨-, rfl⟩ := eq_of_twoPass h
  obtain ⟨hpairwise, hbounds⟩ := pairwise_procedureOffsets intrinsics 0 table.procedures
  have hnames : (table.offsets intrinsics).map Prod.fst = table.names := Compile.map_fst_procedureOffsets intrinsics 0 table.procedures
  constructor
  case words =>
    intro b hb
    exact hwords b.1 (hnames ▸ List.mem_map_of_mem hb)
  case names =>
    rw [hnames]
    exact table.names_nodup
  case offsets => exact hpairwise.imp Nat.ne_of_lt
  case entry =>
    intro b hb hentry
    have hlt := (hbounds b hb).2
    rw [hentry] at hlt
    simp [entry] at hlt

/-- A chunk begins where a procedure does. -/
theorem exists_chunk_of_procedure (h : table.twoPass intrinsics = some c) :
    ∀ b ∈ c.procedures, ∃ chunk ∈ chunksOf 0 (table.pieces intrinsics), chunk.offset = b.2 := by
  obtain ⟨hland, rfl⟩ := eq_of_twoPass h
  intro b hb
  have hprocedures := ((covers_append _ _ _).1 (covers_begins table intrinsics)).1
  obtain ⟨i, size, target, hmem⟩ := exists_chunk_of_begins hland (covers_procedureOffsets rfl hprocedures b hb)
  exact ⟨_, hmem, rfl⟩

end ProcedureTable

end RegisterCompiler
