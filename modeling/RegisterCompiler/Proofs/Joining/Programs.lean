import Mathlib
import RegisterCompiler.Failure
import RegisterCompiler.Proofs.Joining.Tokens

/-!
# Two sources in a row are two programs in a row

The tokens of two sources with a line feed between them derive the procedures of both, those of the second moved behind the
first. So the program of the two is one program behind the other, and where a name is common to both, the second procedure of
that name is refused where its name stands (`joined_sources`).
-/

namespace RegisterCompiler

/-- What is read of two sources with a line feed between them. -/
structure JoinedSources (a b : List UInt8) : Prop where
  /-- The tokens of both, without the first end of the input, those of the second moved. -/
  tokens : ∀ ta tb, tokenize a = .ok ta → tokenize b = .ok tb →
    tokenize (a ++ lineFeed :: b) = .ok (beforeEnd ta ++ tb.map (Token.moved (.behind a)))
  /-- Without a common name, the procedures of both, those of the second moved. -/
  disjoint : ∀ t u, parseSource a = .ok t → parseSource b = .ok u → t.names.Disjoint u.names →
    ∃ table, parseSource (a ++ lineFeed :: b) = .ok table ∧
      table.procedures = t.procedures ++ u.procedures.map (Procedure.moved (.behind a))
  /-- Otherwise the first procedure of the second that has a name of the first is refused, where its name stands. -/
  redeclared : ∀ t u, parseSource a = .ok t → parseSource b = .ok u → ¬t.names.Disjoint u.names →
    ∃ p, u.procedures.find? (fun q => t.contains q.name) = some p ∧
      parseSource (a ++ lineFeed :: b) = .error (.parse ⟨.redeclared p.name, p.position.moved (.behind a)⟩)

/-- A source that is read as a program is accepted, and its tokens are a derivation and the end of the input. -/
theorem exists_derivation_of_parseSource {source : List UInt8} {table : ProcedureTable} (h : parseSource source = .ok table) :
    ∃ (tokens : List Token) (p : Grammar.Program), tokenize source = .ok tokens ∧ p.tokens = beforeEnd tokens ∧
      p.trees = table.procedures := by
  unfold parseSource at h
  cases htokens : tokenize source with
  | error e =>
    rw [htokens] at h
    cases h
  | ok tokens =>
    rw [htokens] at h
    cases hparse : parseTokens tokens with
    | error e =>
      simp only [hparse] at h
      cases h
    | ok t =>
      simp only [hparse] at h
      obtain rfl := Except.ok.inj h
      obtain ⟨p, hp, htrees⟩ := parseTokens_eq_ok_iff.1 hparse
      exact ⟨tokens, p, rfl, hp, htrees⟩

/-- A source whose tokens are a derivation and the end of the input is read as what is derived. -/
theorem parseSource_of_derivation {source : List UInt8} (tokens : List Token) {p : Grammar.Program}
    (htokens : tokenize source = .ok tokens) (hp : p.tokens = beforeEnd tokens)
    (hnames : (p.trees.map Procedure.name).Nodup) : parseSource source = .ok ⟨p.trees, hnames⟩ := by
  have hparse : parseTokens tokens = .ok ⟨p.trees, hnames⟩ := parseTokens_eq_ok_iff.2 ⟨p, hp, rfl⟩
  rw [parseSource, htokens]
  simp only [hparse]
  rfl

/-- What moved tokens derive: the moved derivation, up to the end of the input. -/
theorem exists_rest_moved {tokens : List Token} {p : Grammar.Program} (h : p.tokens = beforeEnd tokens) (d : Shift) :
    ∃ rest, tokens.map (Token.moved d) = Grammar.Program.tokens (p.map (Grammar.Procedure.moved d)) ++ rest ∧
      Stream.AtEnd rest := by
  obtain ⟨rest, htokens, hend⟩ := exists_rest tokens
  refine ⟨rest.map (Token.moved d), ?_, ?_⟩
  · rw [Grammar.Program.tokens_moved, ← List.map_append, h, ← htokens]
  · intro t ht
    rw [List.head?_map] at ht
    obtain ⟨u, hu, rfl⟩ := Option.map_eq_some_iff.1 ht
    exact hend u hu

/-- Two sources that are read are derived one behind the other, the second moved. -/
theorem exists_joined_derivation {a b : List UInt8} {t u : ProcedureTable} (ht : parseSource a = .ok t)
    (hu : parseSource b = .ok u) :
    ∃ (p q : Grammar.Program) (rest : List Token), p.trees = t.procedures ∧ q.trees = u.procedures ∧ Stream.AtEnd rest ∧
      parseSource (a ++ lineFeed :: b) = (parseTokens (p.tokens ++
        (Grammar.Program.tokens (q.map (Grammar.Procedure.moved (.behind a))) ++ rest))).mapError .parse := by
  obtain ⟨ta, p, hta, hp, hptrees⟩ := exists_derivation_of_parseSource ht
  obtain ⟨tb, q, htb, hq, hqtrees⟩ := exists_derivation_of_parseSource hu
  obtain ⟨rest, hrest, hend⟩ := exists_rest_moved hq (.behind a)
  refine ⟨p, q, rest, hptrees, hqtrees, hend, ?_⟩
  rw [parseSource, tokenize_joined hta htb, hp, ← hrest]

/-- Moving procedures does not change their names. -/
theorem map_name_moved (d : Shift) (procedures : List Procedure) :
    (procedures.map (Procedure.moved d)).map Procedure.name = procedures.map Procedure.name := by
  rw [List.map_map]
  rfl

/-- Procedures stand behind a table if they have other names. -/
theorem nodup_behind (t : ProcedureTable) {procedures : List Procedure} (hprocedures : (procedures.map Procedure.name).Nodup)
    (h : ∀ p ∈ procedures, p.name ∉ t.names) : ((t.procedures ++ procedures).map Procedure.name).Nodup := by
  rw [List.map_append]
  refine List.Nodup.append t.names_nodup hprocedures ?_
  intro name ht hp
  obtain ⟨p, hmem, rfl⟩ := List.mem_map.1 hp
  exact h p hmem ht

/-- Of two tables with a common name, the second has a first procedure that has a name of the first. -/
theorem exists_first_common {t u : ProcedureTable} (h : ¬t.names.Disjoint u.names) :
    ∃ p, u.procedures.find? (fun q => t.contains q.name) = some p := by
  rw [← Option.isSome_iff_exists, List.find?_isSome]
  simp only [List.Disjoint, not_forall] at h
  obtain ⟨name, ht, hu, -⟩ := h
  obtain ⟨p, hp, rfl⟩ := List.mem_map.1 hu
  refine ⟨p, hp, ?_⟩
  by_contra hn
  exact (t.contains_eq_false_iff p.name).1 (by simpa using hn) ht

/-- Two programs without a common name are one, one behind the other. -/
theorem parseTokens_joined {tokens rest : List Token} {p q : Grammar.Program} (h : tokens = p.tokens ++ (q.tokens ++ rest))
    (hend : Stream.AtEnd rest) (hnames : ((p.trees ++ q.trees).map Procedure.name).Nodup) :
    ∃ table, parseTokens tokens = .ok table ∧ table.procedures = p.trees ++ q.trees := by
  have htokens : Grammar.Program.tokens (p ++ q) = beforeEnd tokens := by
    have hall : Grammar.Program.tokens (p ++ q) = p.tokens ++ q.tokens := List.flatMap_append
    rw [h, ← List.append_assoc, ← hall, beforeEnd_eq (Grammar.Program.inside _) hend]
  exact ⟨⟨p.trees ++ q.trees, hnames⟩, parseTokens_eq_ok_iff.2 ⟨p ++ q, htokens, List.map_append⟩, rfl⟩

/-- Behind procedures whose names differ, another one is refused that has one of these names. -/
theorem parseTokens_redeclared {tokens rest : List Token} {p : Grammar.Program} {d : Grammar.Procedure}
    (h : tokens = p.tokens ++ (d.tokens ++ rest)) (hnames : (p.trees.map Procedure.name).Nodup)
    (hname : d.name ∈ p.trees.map Procedure.name) :
    parseTokens tokens = .error ⟨.redeclared d.name, d.tree.position⟩ := by
  have hbehind : ((ProcedureTable.empty.procedures ++ p.trees).map Procedure.name).Nodup := hnames
  obtain ⟨r, table, hr, htable, hprocedures⟩ := Stream.procedures_derived p (s := Stream.ofTokens tokens) h hbehind
  rw [parseTokens, hprocedures]
  refine Stream.procedures_eq_redeclared d hr ?_
  rw [ProcedureTable.names, htable]
  exact hname

/-- Behind the procedures of a table, of those of a second program the first is refused that has a name of the table. -/
theorem parseTokens_common {tokens rest : List Token} {t : ProcedureTable} {p q : Grammar.Program} {d : Grammar.Procedure}
    (h : tokens = p.tokens ++ (q.tokens ++ rest)) (hp : p.trees = t.procedures) (hq : (q.trees.map Procedure.name).Nodup)
    (hfind : q.find? (fun d => t.contains d.name) = some d) :
    parseTokens tokens = .error ⟨.redeclared d.name, d.tree.position⟩ := by
  obtain ⟨hd, before, after, rfl, hbefore⟩ := List.find?_eq_some_iff_append.1 hfind
  have htokens : tokens = Grammar.Program.tokens (p ++ before) ++ (d.tokens ++ (Grammar.Program.tokens after ++ rest)) := by
    rw [h]
    simp [Grammar.Program.tokens]
  have htrees : Grammar.Program.trees (p ++ before) = t.procedures ++ Grammar.Program.trees before :=
    hp ▸ List.map_append
  have hnames : ((Grammar.Program.trees (p ++ before)).map Procedure.name).Nodup := by
    rw [Grammar.Program.trees, List.map_append, List.map_append] at hq
    rw [htrees]
    refine nodup_behind t hq.of_append_left ?_
    intro r hr
    obtain ⟨e, he, rfl⟩ := List.mem_map.1 hr
    exact (t.contains_eq_false_iff e.name).1 (by simpa using hbefore e he)
  have hname : d.name ∈ (Grammar.Program.trees (p ++ before)).map Procedure.name := by
    rw [htrees, List.map_append]
    refine List.mem_append_left _ (by_contra fun hn => ?_)
    exact Bool.false_ne_true (((t.contains_eq_false_iff d.name).2 hn).symm.trans hd)
  exact parseTokens_redeclared htokens hnames hname

/-- Two sources with a line feed between them are read as one behind the other. -/
theorem joined_sources (a b : List UInt8) : JoinedSources a b := by
  refine ⟨?_, ?_, ?_⟩
  · intro ta tb hta htb
    exact tokenize_joined hta htb
  · intro t u ht hu hdisjoint
    obtain ⟨p, q, rest, hp, hq, hend, hparse⟩ := exists_joined_derivation ht hu
    have hmoved := Grammar.Program.trees_moved (.behind a) q
    rw [hq] at hmoved
    have hnames : ((t.procedures ++ u.procedures.map (Procedure.moved (.behind a))).map Procedure.name).Nodup := by
      have hmovednames : ((u.procedures.map (Procedure.moved (.behind a))).map Procedure.name).Nodup := by
        rw [map_name_moved]
        exact u.names_nodup
      refine nodup_behind t hmovednames ?_
      intro r hr hname
      obtain ⟨r, hmem, rfl⟩ := List.mem_map.1 hr
      have hother : r.name ∈ u.names := List.mem_map_of_mem hmem
      exact hdisjoint hname hother
    rw [← hp, ← hmoved] at hnames
    obtain ⟨table, htable, hprocedures⟩ := parseTokens_joined rfl hend hnames
    rw [hp, hmoved] at hprocedures
    exact ⟨table, by rw [hparse, htable]; rfl, hprocedures⟩
  · intro t u ht hu hcommon
    obtain ⟨p, q, rest, hp, hq, -, hparse⟩ := exists_joined_derivation ht hu
    obtain ⟨r, hfind⟩ := exists_first_common hcommon
    refine ⟨r, hfind, ?_⟩
    -- the derivation of the refused procedure is found by its name, moved or not
    rw [← hq, Grammar.Program.trees, List.find?_map, Option.map_eq_some_iff] at hfind
    obtain ⟨d, hd, rfl⟩ := hfind
    have hfound : (q.map (Grammar.Procedure.moved (.behind a))).find? (fun d => t.contains d.name) =
        some (d.moved (.behind a)) := by
      rw [List.find?_map]
      exact congrArg (Option.map _) hd
    have hnames : ((Grammar.Program.trees (q.map (Grammar.Procedure.moved (.behind a)))).map Procedure.name).Nodup := by
      rw [Grammar.Program.trees_moved, map_name_moved, hq]
      exact u.names_nodup
    rw [hparse, parseTokens_common rfl hp hnames hfound, d.tree_moved]
    rfl

/-- A procedure without statements whose name is one byte, where the source begins. -/
def emptyProcedure (name : String) : Grammar.Procedure where
  keyword := ⟨⟨⟨0, 1, 1⟩, ⟨4, 1, 5⟩⟩, "proc"⟩
  name := name
  identifier := ⟨⟨⟨5, 1, 6⟩, ⟨6, 1, 7⟩⟩, name⟩
  opening := ⟨⟨⟨6, 1, 7⟩, ⟨7, 1, 8⟩⟩, "\x7b"⟩
  body := []
  closing := ⟨⟨⟨7, 1, 8⟩, ⟨8, 1, 9⟩⟩, "\x7d"⟩

/-- A source whose last line ends with a comment. -/
def commentedSource : List UInt8 := utf8Bytes "proc f\x7b\x7d // 1"

/-- Behind a comment the second source begins with its own procedure, and its procedure of a taken name is refused. -/
theorem joined_sources_commented :
    (∃ table, parseSource (commentedSource ++ lineFeed :: utf8Bytes "proc g\x7b\x7d") = .ok table ∧
      table.names = ["f", "g"]) ∧
    parseSource (commentedSource ++ lineFeed :: utf8Bytes "proc g\x7b\x7d\nproc f\x7b\x7d") =
      .error (.parse ⟨.redeclared "f", ⟨28, 3, 6⟩⟩) := by
  have ha : parseSource commentedSource = .ok ⟨Grammar.Program.trees [emptyProcedure "f"], by decide⟩ :=
    parseSource_of_derivation ((emptyProcedure "f").tokens ++ [⟨.endOfInput, Span.point ⟨13, 1, 14⟩, ""⟩])
      (by decide +kernel) (by decide +kernel) _
  have hother : parseSource (utf8Bytes "proc g\x7b\x7d") = .ok ⟨Grammar.Program.trees [emptyProcedure "g"], by decide⟩ :=
    parseSource_of_derivation ((emptyProcedure "g").tokens ++ [⟨.endOfInput, Span.point ⟨8, 1, 9⟩, ""⟩])
      (by decide +kernel) (by decide +kernel) _
  have htaken : parseSource (utf8Bytes "proc g\x7b\x7d\nproc f\x7b\x7d") =
      .ok ⟨Grammar.Program.trees [emptyProcedure "g", (emptyProcedure "f").moved ⟨9, 1⟩], by decide⟩ :=
    parseSource_of_derivation ((emptyProcedure "g").tokens ++ ((emptyProcedure "f").moved ⟨9, 1⟩).tokens ++
      [⟨.endOfInput, Span.point ⟨17, 2, 9⟩, ""⟩]) (by decide +kernel) (by decide +kernel) _
  constructor
  · obtain ⟨table, htable, hprocedures⟩ := (joined_sources commentedSource (utf8Bytes "proc g\x7b\x7d")).disjoint _ _ ha hother
      (by change ["f"].Disjoint ["g"]; simp)
    refine ⟨table, htable, ?_⟩
    rw [ProcedureTable.names, hprocedures]
    rfl
  · obtain ⟨p, hp, herror⟩ := (joined_sources commentedSource (utf8Bytes "proc g\x7b\x7d\nproc f\x7b\x7d")).redeclared _ _ ha
      htaken (by change ¬["f"].Disjoint ["g", "f"]; simp)
    obtain rfl : ((emptyProcedure "f").moved ⟨9, 1⟩).tree = p := Option.some.inj hp
    exact herror

end RegisterCompiler
