import RegisterCompiler.Proofs.Assembly.Transcript

/-!
# Code read back

The listing of finished code is the transcript of the calls that it was written by (`Bench.listing_of_run`). The proof goes
through pieces: each call adds the pieces that its entries describe, or settles the target of one (`Bench.Records.make`), and the
pieces of finished code are what a listing finds in it. A label is the rank of its offset, so it names one offset only.
-/

namespace RegisterCompiler.X64

/-! ## Labels -/

/-- The number is put in, and no other one comes or goes. -/
theorem mem_insertAscending {n m : Nat} {ts : List Nat} : m ∈ insertAscending n ts ↔ m = n ∨ m ∈ ts := by
  induction ts with
  | nil => simp [insertAscending]
  | cons t rest ih =>
    unfold insertAscending
    split
    · simp
    · split <;> simp_all [or_left_comm]

/-- The list stays ascending. -/
theorem pairwise_insertAscending {ts : List Nat} (n : Nat) (h : ts.Pairwise (· < ·)) :
    (insertAscending n ts).Pairwise (· < ·) := by
  induction ts with
  | nil => exact List.pairwise_singleton _ _
  | cons t rest ih =>
    obtain ⟨ht, hrest⟩ := List.pairwise_cons.1 h
    unfold insertAscending
    split
    · rename_i hlt
      refine List.pairwise_cons.2 ⟨fun m hm => ?_, h⟩
      rcases List.mem_cons.1 hm with rfl | hm
      · exact hlt
      · exact hlt.trans (ht m hm)
    · split
      · exact h
      · refine List.pairwise_cons.2 ⟨fun m hm => ?_, ih hrest⟩
        rcases mem_insertAscending.1 hm with rfl | hm
        · omega
        · exact ht m hm

/-- Numbers put one after another into an ascending list leave an ascending list of all of them. -/
theorem foldl_insertAscending (ns : List Nat) {ts : List Nat} (h : ts.Pairwise (· < ·)) :
    (ns.foldl (fun ts n => insertAscending n ts) ts).Pairwise (· < ·) ∧
      ∀ m, m ∈ ns.foldl (fun ts n => insertAscending n ts) ts ↔ m ∈ ts ∨ m ∈ ns := by
  induction ns generalizing ts with
  | nil => exact ⟨h, by simp⟩
  | cons n rest ih =>
    obtain ⟨hpairwise, hmem⟩ := ih (pairwise_insertAscending n h)
    refine ⟨hpairwise, fun m => ?_⟩
    rw [List.foldl_cons, hmem, mem_insertAscending, List.mem_cons, or_assoc, or_left_comm]

/-- The place of a number among ascending ones is the number of smaller ones. -/
theorem idxOf?_eq_count {ts : List Nat} (h : ts.Pairwise (· < ·)) (n : Nat) :
    ts.idxOf? n = if n ∈ ts then some (Nat.count (· ∈ ts) n) else none := by
  have hcount : Nat.count (· ∈ ts) n = (ts.filter (· < n)).length := by
    rw [Nat.count_eq_card_filter_range, ← List.toFinset_card_of_nodup ((h.imp Nat.ne_of_lt).filter _)]
    congr 1
    ext m
    simp [and_comm]
  rw [hcount]
  clear hcount
  induction ts with
  | nil => rfl
  | cons t rest ih =>
    obtain ⟨ht, hrest⟩ := List.pairwise_cons.1 h
    rw [List.idxOf?_cons, ih hrest]
    by_cases htn : t = n
    · have hfilter : rest.filter (· < n) = [] := by
        simp only [List.filter_eq_nil_iff, decide_eq_true_eq, Nat.not_lt]
        exact fun m hm => htn ▸ (ht m hm).le
      simp [htn, hfilter]
    · by_cases hmem : n ∈ rest
      · simp [htn, hmem, ht n hmem]
      · simp [htn, hmem, Ne.symm htn]

/-- Where nothing has a name of its own, the targets have their labels. -/
theorem name?_unnamed (cs : List Chunk) (offset : Nat) :
    name? unnamed (targets cs) offset =
      if offset ∈ cs.filterMap Chunk.target? then some (labelOf (cs.filterMap Chunk.target?) offset) else none := by
  obtain ⟨hpairwise, hmem⟩ := foldl_insertAscending (cs.filterMap Chunk.target?) List.Pairwise.nil
  have htargets : ∀ m, m ∈ targets cs ↔ m ∈ cs.filterMap Chunk.target? := by
    intro m
    rw [targets, hmem]
    exact or_iff_right List.not_mem_nil
  show label? (targets cs) offset = _
  have hidx : (targets cs).idxOf? offset =
      if offset ∈ targets cs then some (Nat.count (· ∈ targets cs) offset) else none := idxOf?_eq_count hpairwise offset
  rw [label?, hidx]
  simp only [htargets, labelOf]
  split <;> rfl

/-- Two targets with one label are the same. -/
theorem eq_of_labelOf_eq {ts : List Nat} {m n : Nat} (hm : m ∈ ts) (hn : n ∈ ts) (h : labelOf ts m = labelOf ts n) :
    m = n := by
  have hdigits := congrArg String.toList ((String.append_right_inj "L").1 h)
  rw [Nat.toString_eq_ofList_toDigits, Nat.toString_eq_ofList_toDigits, String.toList_ofList, String.toList_ofList] at hdigits
  refine Nat.count_injective (p := (· ∈ ts)) hm hn ?_
  rw [← Nat.ofDigitChars_ten_toDigits (n := Nat.count (· ∈ ts) m), hdigits, Nat.ofDigitChars_ten_toDigits]

/-! ## Pieces and entries -/

/-- The piece of a hole whose target is not known. -/
def HoleKind.piece : HoleKind → Piece
  | jump => .jump .later
  | branch => .branch .equal .later
  | call => .call .later

/-- The piece of a hole that is filled. -/
def Filling.piece {kind : HoleKind} (filling : Filling kind) (target : Nat) : Piece :=
  match filling with
  | jump => .jump (.offset target)
  | branch comparison inverted => .branch (if inverted then comparison.complement else comparison).code (.offset target)
  | call => .call (.offset target)

/-- A piece that is no plain instruction is proper. -/
theorem proper_of_ne_plain {p : Piece} (h : ∀ i, p ≠ .plain i) : p.Proper := fun i hi => absurd hi (h i)

/-- An entry describes a piece. What is asked for may have been refused, so a hole may stand where a reference was recorded. -/
inductive Entry.Describes : Entry → Piece → Prop where
  | line (i : Instruction) : Describes (.line i.size (i.text "")) (.plain i)
  | data (bytes : List UInt8) : Describes (.data bytes) (.text bytes)
  | hole (kind : HoleKind) (refers : Option Reference) : Describes (.reference kind.size refers) kind.piece
  | filled {kind : HoleKind} (filling : Filling kind) (target : Nat) :
    Describes (.reference kind.size (some (filling.reference target))) (filling.piece target)
  | address (dest : Reg) (target : Nat) :
    Describes (.reference 7 (some (addressReference dest target))) (.address dest target)

namespace Entry.Describes

variable {e : Entry} {p : Piece}

/-- An entry has the size of the piece that it describes. -/
theorem size_eq (h : e.Describes p) : p.size = e.size := by
  cases h with
  | hole kind refers => cases kind <;> rfl
  | filled filling target => cases filling <;> rfl
  | _ => rfl

/-- A hole is described whatever it is to refer to. -/
theorem of_hole (h : e.Describes p) {offset : Nat} {kind : HoleKind} (hitem : p.item offset = .hole kind)
    (refers : Option Reference) : (Entry.reference kind.size refers).Describes p := by
  cases h with
  | line i => cases hitem
  | data bytes => cases hitem
  | hole other _ =>
    obtain rfl : other = kind := by cases other <;> exact Item.hole.inj hitem
    exact .hole other refers
  | filled filling target => cases filling <;> cases hitem
  | address dest target => cases hitem

/-- An entry refers to what the chunk of its piece refers to. -/
theorem target?_eq (h : e.Describes p) {offset : Nat} (hp : p.Lands offset) :
    (p.chunk? offset).bind Chunk.target? = e.target? := by
  cases h with
  | line i => rfl
  | data bytes => cases bytes <;> rfl
  | hole kind refers => cases kind <;> exact hp.elim
  | filled filling target => cases filling <;> rfl
  | address dest target => rfl

/-- A piece that lands shows the text of its entry, if its entry has one. -/
theorem text?_eq (h : e.Describes p) {offset : Nat} (hp : p.Lands offset) {name : Nat → Option String} {label : Nat → String}
    (hname : ∀ t, e.target? = some t → name t = some (label t)) :
    (p.chunk? offset).map (fun c => (c.offset, c.text name)) = (e.text? label).map fun text => (offset, text) := by
  cases h with
  | line i => rfl
  | data bytes => cases bytes <;> rfl
  | hole kind refers => cases kind <;> exact hp.elim
  | filled filling target =>
    have htarget := hname target rfl
    cases filling <;> simp [Piece.chunk?, Filling.piece, Piece.item, Chunk.offset, Chunk.text, Piece.offset?, Piece.target?,
      Instruction.text, text?, Filling.reference, htarget, String.append_assoc]
  | address dest target =>
    have htarget := hname target rfl
    simp [Piece.chunk?, Piece.item, Chunk.offset, Chunk.text, Piece.offset?, Piece.target?, Instruction.text, text?,
      addressReference, htarget]

/-- A piece that lands is shown as its entry. -/
theorem lines_eq (h : e.Describes p) {offset : Nat} (hp : p.Lands offset) {ts : List Nat} {name : Nat → Option String}
    (hname : ∀ t, name t = if t ∈ ts then some (labelOf ts t) else none) (htarget : ∀ t, e.target? = some t → t ∈ ts) :
    (p.chunk? offset).toList.flatMap (Chunk.lines name) = e.lines ts offset := by
  have hlabel : ∀ t, e.target? = some t → name t = some (labelOf ts t) := fun t ht => by rw [hname, if_pos (htarget t ht)]
  have htext := h.text?_eq hp hlabel
  unfold Entry.lines
  cases hchunk : p.chunk? offset with
  | none =>
    rw [hchunk, Option.map_none, eq_comm, Option.map_eq_none_iff] at htext
    rw [htext]
    rfl
  | some c =>
    rw [hchunk, Option.map_some, eq_comm, Option.map_eq_some_iff] at htext
    obtain ⟨text, htext, hc⟩ := htext
    obtain ⟨hoffset, rfl⟩ := Prod.mk.inj hc
    rw [htext, Option.toList_some, List.flatMap_singleton, Chunk.lines, hname, ← hoffset]
    by_cases hmem : offset ∈ ts <;> simp [hmem]

end Entry.Describes

/-- The chunks of pieces are that of the first one and those of the rest behind it. -/
theorem chunksOf_cons (offset : Nat) (p : Piece) (rest : List Piece) :
    chunksOf offset (p :: rest) = (p.chunk? offset).toList ++ chunksOf (offset + p.size) rest := by
  rw [chunksOf, located_cons, List.filterMap_cons]
  cases hchunk : p.chunk? offset <;> rfl

/-- The targets of a record are that of its first entry and those of the rest. -/
theorem recordTargets_cons (e : Entry) (rest : List Entry) :
    recordTargets (e :: rest) = e.target?.toList ++ recordTargets rest := by
  rw [recordTargets, List.filterMap_cons]
  cases e.target? <;> rfl

/-- Code written for good refers to the offsets that its record refers to. -/
theorem targets_chunksOf {written : List (Entry × Piece)} (h : ∀ w ∈ written, w.1.Describes w.2) {offset : Nat}
    (hland : AllLand offset (written.map Prod.snd)) :
    (chunksOf offset (written.map Prod.snd)).filterMap Chunk.target? = recordTargets (written.map Prod.fst) := by
  induction written generalizing offset with
  | nil => rfl
  | cons w rest ih =>
    obtain ⟨hw, hrest⟩ := (allLand_cons _ _ _).1 hland
    have ih := ih (fun v hv => h v (.tail _ hv)) hrest
    have hhead : (w.2.chunk? offset).toList.filterMap Chunk.target? = w.1.target?.toList := by
      rw [← (h w (.head _)).target?_eq hw]
      cases w.2.chunk? offset with
      | none => rfl
      | some c => cases hc : c.target? <;> simp [hc]
    rw [List.map_cons, List.map_cons, chunksOf_cons, List.filterMap_append, ih, hhead, recordTargets_cons]

/-- Code written for good is shown as its record. -/
theorem lines_chunksOf {written : List (Entry × Piece)} (h : ∀ w ∈ written, w.1.Describes w.2) {offset : Nat}
    (hland : AllLand offset (written.map Prod.snd)) {ts : List Nat} {name : Nat → Option String}
    (hname : ∀ t, name t = if t ∈ ts then some (labelOf ts t) else none)
    (htargets : ∀ t ∈ recordTargets (written.map Prod.fst), t ∈ ts) :
    (chunksOf offset (written.map Prod.snd)).flatMap (Chunk.lines name) = recordLines ts offset (written.map Prod.fst) := by
  induction written generalizing offset with
  | nil => rfl
  | cons w rest ih =>
    obtain ⟨hw, hrest⟩ := (allLand_cons _ _ _).1 hland
    have hdescribes := h w (.head _)
    rw [List.map_cons, recordTargets_cons] at htargets
    have hlines := hdescribes.lines_eq hw hname fun t ht => htargets t (List.mem_append_left _ (by rw [ht]; exact .head _))
    have ih := ih (fun v hv => h v (.tail _ hv)) hrest fun t ht => htargets t (List.mem_append_right _ ht)
    rw [List.map_cons, chunksOf_cons, List.flatMap_append, hlines, ih, hdescribes.size_eq]
    rfl

/-! ## The record of a bench -/

namespace Bench

variable {b b' : Bench} {c : Call} {calls : List Call} {result : Except AssemblyError Unit}
  {record : List Entry} {written new : List (Entry × Piece)}

/-- A record is right: its entries describe the pieces that the code consists of. -/
structure Records (b : Bench) (record : List Entry) (written : List (Entry × Piece)) : Prop where
  items : b.items = itemsOf 0 (written.map Prod.snd)
  record : record = written.map Prod.fst
  describes : ∀ w ∈ written, w.1.Describes w.2
  reach : AllReach 0 (written.map Prod.snd)
  proper : ∀ w ∈ written, w.2.Proper

/-- A right record is as long as the code. -/
theorem Records.size (h : b.Records record written) : recordSize record = itemsSize b.items := by
  rw [h.items, itemsSize_itemsOf, h.record, recordSize, piecesSize, List.map_map, List.map_map]
  exact congrArg List.sum (List.map_congr_left fun w hw => (h.describes w hw).size_eq.symm)

/-- Pieces written behind the others, with an entry for each. -/
theorem Records.wrote (h : b.Records record written)
    (hitems : b'.items = b.items ++ itemsOf (itemsSize b.items) (new.map Prod.snd))
    (hdescribes : ∀ w ∈ new, w.1.Describes w.2) (hreach : AllReach (itemsSize b.items) (new.map Prod.snd))
    (hproper : ∀ w ∈ new, w.2.Proper) : b'.Records (record ++ new.map Prod.fst) (written ++ new) := by
  have hsize : itemsSize b.items = piecesSize (written.map Prod.snd) := by rw [h.items, itemsSize_itemsOf]
  constructor
  case items => rw [hitems, hsize, h.items, List.map_append, itemsOf_append, Nat.zero_add]
  case record => rw [h.record, List.map_append]
  case describes => exact fun w hw => (List.mem_append.1 hw).elim (h.describes w) (hdescribes w)
  case reach =>
    rw [List.map_append, allReach_append, Nat.zero_add, ← hsize]
    exact ⟨h.reach, hreach⟩
  case proper => exact fun w hw => (List.mem_append.1 hw).elim (h.proper w) (hproper w)

/-- One piece written behind the others. -/
theorem Records.wrote_one (h : b.Records record written) {e : Entry} {p : Piece}
    (hitems : b'.items = b.items ++ [p.item (itemsSize b.items)]) (hdescribes : e.Describes p)
    (hreach : p.Reaches (itemsSize b.items)) (hproper : p.Proper) : b'.Records (record ++ [e]) (written ++ [(e, p)]) :=
  @wrote b b' record written [(e, p)] h hitems (by simpa using hdescribes) (by simpa using hreach) (by simpa using hproper)

/-- An item that is written for pieces is written for one of them. -/
theorem exists_of_itemsOf_eq {item : Item} {before behind : List Item} {offset : Nat}
    (h : itemsOf offset (written.map Prod.snd) = before ++ item :: behind) :
    ∃ front w back, written = front ++ w :: back ∧ before = itemsOf offset (front.map Prod.snd) ∧
      item = w.2.item (offset + itemsSize before) ∧
      behind = itemsOf (offset + itemsSize before + w.2.size) (back.map Prod.snd) := by
  induction before generalizing written offset with
  | nil =>
    cases written with
    | nil => cases h
    | cons w back =>
      obtain ⟨rfl, rfl⟩ := List.cons.inj h
      exact ⟨[], w, back, rfl, rfl, rfl, rfl⟩
  | cons first before ih =>
    cases written with
    | nil => cases h
    | cons v rest =>
      obtain ⟨rfl, hrest⟩ := List.cons.inj h
      obtain ⟨front, w, back, rfl, hbefore, hitem, hbehind⟩ := ih hrest
      rw [itemsSize, Piece.size_item, ← Nat.add_assoc]
      exact ⟨v :: front, w, back, rfl, congrArg _ hbefore, hitem, hbehind⟩

/-- One piece exchanged for another one of its size. -/
theorem Records.exchange {front back : List (Entry × Piece)} {w : Entry × Piece} {e : Entry} {p : Piece}
    (h : b.Records record (front ++ w :: back)) (hsize : p.size = w.2.size)
    (hitems : b'.items = itemsOf 0 (front.map Prod.snd) ++ p.item (piecesSize (front.map Prod.snd)) ::
      itemsOf (piecesSize (front.map Prod.snd) + p.size) (back.map Prod.snd))
    (hdescribes : e.Describes p) (hreach : p.Reaches (piecesSize (front.map Prod.snd))) (hproper : p.Proper) :
    b'.Records (record.set front.length e) (front ++ (e, p) :: back) := by
  have hmem : ∀ v ∈ front ++ (e, p) :: back, v = (e, p) ∨ v ∈ front ++ w :: back := by
    intro v hv
    simp only [List.mem_append, List.mem_cons] at hv ⊢
    tauto
  have hold := h.reach
  rw [List.map_append, List.map_cons, allReach_append, allReach_cons, Nat.zero_add] at hold
  constructor
  case items => rw [hitems, List.map_append, List.map_cons, itemsOf_append, itemsOf_cons, Nat.zero_add]
  case record =>
    rw [h.record, List.map_append, List.set_append_right _ _ (by simp), List.map_append]
    simp
  case describes =>
    intro v hv
    rcases hmem v hv with rfl | hv
    · exact hdescribes
    · exact h.describes v hv
  case reach =>
    rw [List.map_append, List.map_cons, allReach_append, allReach_cons, Nat.zero_add, hsize]
    exact ⟨hold.1, hreach, hold.2.2⟩
  case proper =>
    intro v hv
    rcases hmem v hv with rfl | hv
    · exact hproper
    · exact h.proper v hv

/-- Filling a hole settles the target of its piece; a refused target leaves the hole open. -/
theorem Records.patch (hb : b.Kept) (h : b.Records record written) {kind : HoleKind} {hole : Hole kind} {target : Nat}
    {filling : Filling kind} (hmake : b.make (.patch hole target filling) = some (b', result)) :
    ∃ written', b'.Records (Call.record record (.patch hole target filling)) written' := by
  simp only [make] at hmake
  split at hmake
  case isFalse => cases hmake
  case isTrue hheld =>
    obtain ⟨before, behind, hitems, rfl⟩ := hb.exists_hole hheld
    obtain ⟨front, w, back, rfl, rfl, hhole, rfl⟩ := exists_of_itemsOf_eq (h.items.symm.trans hitems)
    have hw : w ∈ front ++ w :: back := by simp
    have hsize : w.2.size = kind.size := by rw [← Piece.size_item, ← hhole, size_hole]
    rw [Nat.zero_add, itemsSize_itemsOf] at hhole
    show ∃ written', b'.Records (record.set (itemsOf 0 (front.map Prod.snd)).length _) written'
    rw [length_itemsOf, List.length_map]
    have hreachOld : w.2.Reaches (piecesSize (front.map Prod.snd)) := by
      have := h.reach
      rw [List.map_append, List.map_cons, allReach_append, allReach_cons, Nat.zero_add] at this
      exact this.2.1
    -- a refused target changes the record only: the hole is still open
    have hopen : b'.items = b.items → ∃ written', b'.Records
        (record.set front.length (.reference kind.size (some (filling.reference target)))) written' := by
      intro hsame
      refine ⟨_, h.exchange (p := w.2) rfl ?_ ?_ hreachOld (h.proper w hw)⟩
      · rw [hsame, hitems, hhole, Nat.zero_add, itemsSize_itemsOf]
      · exact (h.describes w hw).of_hole hhole.symm _
    -- the target is behind the code, out of reach, or reached
    rcases patch_cases filling hitems target with ⟨-, herror⟩ | ⟨-, -, herror⟩ | ⟨-, hreach, a, hok, hafter⟩
    · rw [herror] at hmake
      obtain ⟨rfl, -⟩ := Prod.mk.inj (Option.some.inj hmake)
      exact hopen rfl
    · rw [herror] at hmake
      obtain ⟨rfl, -⟩ := Prod.mk.inj (Option.some.inj hmake)
      exact hopen rfl
    · rw [hok] at hmake
      obtain ⟨rfl, -⟩ := Prod.mk.inj (Option.some.inj hmake)
      rw [itemsSize_itemsOf] at hreach
      have hpiece : (filling.piece target).size = kind.size := by cases filling <;> rfl
      refine ⟨_, h.exchange (p := filling.piece target) (hpiece.trans hsize.symm) (hafter.trans ?_) (.filled filling target) ?_
        (proper_of_ne_plain (by cases filling <;> simp [Filling.piece]))⟩
      · rw [itemsSize_itemsOf, Nat.zero_add, hpiece, hsize]
        cases filling <;> rfl
      · intro n hn
        obtain rfl : target = n := by cases filling <;> exact Target.offset.inj (Option.some.inj hn)
        rwa [hpiece]

/-- A hole reserved behind the rest. -/
theorem Records.reserve (h : b.Records record written) {kind : HoleKind} (hmake : b.make (.reserve kind) = some (b', result)) :
    ∃ written', b'.Records (Call.record record (.reserve kind)) written' := by
  obtain ⟨rfl, -⟩ := Prod.mk.inj (Option.some.inj hmake)
  refine ⟨_, h.wrote_one (p := kind.piece) ?_ (.hole kind none) ?_ (proper_of_ne_plain (by cases kind <;> exact fun _ => nofun))⟩
  · rw [show kind.piece.item (itemsSize b.items) = .hole kind by cases kind <;> rfl]
    exact items_add b.assembler _
  · cases kind <;> exact nofun

/-- Every call keeps its record right. -/
theorem Records.make (hb : b.Kept) (h : b.Records record written)
    (haddress : ∀ dest target, c = .address dest target → target.toNat < 2 ^ 63) (hmake : b.make c = some (b', result)) :
    ∃ written', b'.Records (c.record record) written' := by
  cases c with
  | emit emission =>
    obtain ⟨rfl, -⟩ := Prod.mk.inj (Option.some.inj hmake)
    obtain ⟨new, hnew⟩ : ∃ new : List (Entry × Piece),
      new = emission.sequence.map fun i => (lineOf i, .plain i) := ⟨_, rfl⟩
    have hpieces : new.map Prod.snd = plainPieces emission.sequence := by rw [hnew, List.map_map]; rfl
    have hentries : new.map Prod.fst = emission.entries := by rw [hnew, List.map_map, ← emission.lines_sequence]; rfl
    refine ⟨written ++ new, ?_⟩
    show Records _ (record ++ emission.entries) _
    rw [← hentries]
    refine h.wrote ?_ ?_ ?_ ?_
    · rw [hpieces, itemsOf_plainPieces]
      exact items_emitAll b.assembler emission.sequence
    · rw [hnew]
      intro w hw
      obtain ⟨i, -, rfl⟩ := List.mem_map.1 hw
      exact .line i
    · rw [hpieces]
      exact allReach_plainPieces _ _
    · intro w hw
      refine proper_plainPieces emission.properSequence w.2 ?_
      rw [← hpieces]
      exact List.mem_map_of_mem hw
  | address dest target =>
    have hoffset : recordSize record + 7 = b.assembler.offset + 7 := by rw [h.size, offset_eq]
    have hsmall := haddress dest target rfl
    simp only [Call.record, hoffset]
    split
    case isTrue hreach =>
      have hemit := @emitAddress_of_inReach b.assembler dest _ hsmall hreach
      rw [UInt64.ofNat_toNat] at hemit
      simp only [make, hemit] at hmake
      obtain ⟨rfl, -⟩ := Prod.mk.inj (Option.some.inj hmake)
      rw [offset_eq] at hreach
      refine ⟨_, h.wrote_one (p := .address dest target.toNat) ?_ (.address dest target.toNat) ?_
        (proper_of_ne_plain (by simp))⟩
      · rw [← offset_eq]
        exact items_add b.assembler _
      · intro n hn
        obtain rfl : target.toNat = n := Target.offset.inj (Option.some.inj hn)
        exact hreach
    case isFalse hreach =>
      simp only [make] at hmake
      split at hmake
      · cases hmake
      · obtain ⟨rfl, -⟩ := Prod.mk.inj (Option.some.inj hmake)
        exact ⟨written, h⟩
      · rename_i a ha
        obtain ⟨d, hd, -⟩ := emitAddress_eq_ok ha
        rw [← UInt64.ofNat_toNat (x := target), toInt64_ofNat hsmall, displacement?_of_not_inReach hreach] at hd
        cases hd
  | storeSlot slot source => cases hmake
  | loadSlot dest slot => cases hmake
  | embed bytes =>
    obtain ⟨rfl, -⟩ := Prod.mk.inj (Option.some.inj hmake)
    exact ⟨_, h.wrote_one (p := .text bytes) (items_add b.assembler _) (.data bytes) (by intro n hn; cases hn)
      (proper_of_ne_plain (by simp))⟩
  | reserve kind => exact h.reserve hmake
  | patch hole target filling => exact h.patch hb hmake
  | jumpBack target =>
    -- a jump back is a hole that is filled at once
    rw [make_jumpBack hb] at hmake
    obtain ⟨⟨b₁, result₁⟩, hreserve, hpatch⟩ := Option.bind_eq_some_iff.1 hmake
    obtain ⟨written₁, h₁⟩ := h.reserve hreserve
    obtain ⟨written₂, h₂⟩ := h₁.patch (kept_of_steps (steps_of_make hb hreserve) hb) hpatch
    have hindex : (b.assembler.reserve .jump).2.index = record.length := by
      have hlength := congrArg List.length h.items
      rw [length_itemsOf, List.length_map] at hlength
      rw [h.record, List.length_map, ← hlength]
      rfl
    refine ⟨written₂, ?_⟩
    simpa [Call.record, hindex] using h₂

/-- Calls one after another keep their record right. -/
theorem Records.run (hb : b.Kept) (h : b.Records record written)
    (haddress : ∀ dest target, .address dest target ∈ calls → target.toNat < 2 ^ 63) (hrun : b.run calls = some b') :
    ∃ written', b'.Records (calls.foldl Call.record record) written' := by
  induction calls generalizing b record written with
  | nil =>
    obtain rfl := Option.some.inj hrun
    exact ⟨written, h⟩
  | cons c rest ih =>
    obtain ⟨⟨b₁, result⟩, hmake, hrest⟩ := Option.bind_eq_some_iff.1 hrun
    obtain ⟨written₁, h₁⟩ := h.make hb (fun dest target hc => haddress dest target (hc ▸ .head _)) hmake
    exact ih (kept_of_steps (steps_of_make hb hmake) hb) h₁ (fun dest target hc => haddress dest target (.tail _ hc)) hrest

/-- Before the first call nothing is recorded. -/
theorem records_start : start.Records [] [] :=
  ⟨rfl, rfl, fun _ hw => absurd hw List.not_mem_nil, allReach_nil 0, fun _ hw => absurd hw List.not_mem_nil⟩

/-- Where the last hole is filled, the code is that of the pieces, which are all written for good. -/
theorem Records.finished (h : b.Records record written) {code : Code} (hfinish : b.assembler.finish = .ok code) :
    code = codeOf (written.map Prod.snd) ∧ AllLand 0 (written.map Prod.snd) ∧ ∀ p ∈ written.map Prod.snd, p.Proper := by
  unfold Assembler.finish at hfinish
  split at hfinish
  case isFalse => cases hfinish
  case isTrue hpending =>
    have hitems : b.assembler.items.toList = itemsOf 0 (written.map Prod.snd) := h.items
    refine ⟨?_, allLand_of_allReach h.reach (hitems ▸ hpending), fun p hp => ?_⟩
    · rw [← Except.ok.inj hfinish, Assembler.bytes, Assembler.data, hitems]
      rfl
    · obtain ⟨w, hw, rfl⟩ := List.mem_map.1 hp
      exact h.proper w hw

/-- Where the last hole is filled, the listing is the transcript of the record. -/
theorem Records.listing (h : b.Records record written) {code : Code} (hfinish : b.assembler.finish = .ok code) :
    code.listing unnamed [] = .ok (String.intercalate "\n" (transcript record)) := by
  obtain ⟨hcode, hland, hproper⟩ := h.finished hfinish
  have htargets := targets_chunksOf h.describes hland
  have hname := name?_unnamed (chunksOf 0 (written.map Prod.snd))
  rw [htargets] at hname
  have hlines := lines_chunksOf h.describes hland hname fun t ht => ht
  show X64.listing unnamed code.data code.bytes = _
  rw [X64.listing, hcode, chunks_codeOf hland hproper, transcript, h.record, ← hlines, Except.map]

/-- The record of calls is always as long as the code, so what a call records stands where the call wrote. -/
theorem recordSize_of_run (haddress : ∀ dest target, .address dest target ∈ calls → target.toNat < 2 ^ 63)
    (hrun : start.run calls = some b) : recordSize (recordOf calls) = b.bytes.length := by
  obtain ⟨written, h⟩ := records_start.run kept_start haddress hrun
  exact h.size.trans (length_bytes b).symm

/-- Calls in a row are run one part after the other. -/
theorem run_append (before behind : List Call) : b.run (before ++ behind) = (b.run before).bind fun b' => b'.run behind := by
  induction before generalizing b with
  | nil => rfl
  | cons c rest ih =>
    show (b.make c).bind _ = ((b.make c).bind _).bind _
    rw [Option.bind_assoc]
    exact congrArg _ (funext fun p => ih)

/-- Whatever calls finished code was written by, its listing is the transcript of them: the lines that they ask for, in their
order, each at the offset at which its call wrote, and each reference with the label of its target, which no other target has. An
emission has written one instruction for each of its lines. The offset of an address must be one that code can have. -/
theorem listing_of_run {code : Code} (haddress : ∀ dest target, .address dest target ∈ calls → target.toNat < 2 ^ 63)
    (hrun : start.run calls = some b) (hfinish : b.assembler.finish = .ok code) :
    code.listing unnamed [] = .ok (String.intercalate "\n" (transcript (recordOf calls))) ∧
      (∀ before behind, calls = before ++ behind →
        ∃ b', start.run before = some b' ∧ recordSize (recordOf before) = b'.bytes.length) ∧
      (∀ emission, .emit emission ∈ calls → emission.sequence.map lineOf = emission.entries) ∧
      ∀ m ∈ recordTargets (recordOf calls), ∀ n ∈ recordTargets (recordOf calls),
        labelOf (recordTargets (recordOf calls)) m = labelOf (recordTargets (recordOf calls)) n → m = n := by
  refine ⟨?_, ?_, fun emission _ => emission.lines_sequence, fun m hm n hn h => eq_of_labelOf_eq hm hn h⟩
  · obtain ⟨written, h⟩ := records_start.run kept_start haddress hrun
    exact h.listing hfinish
  · rintro before behind rfl
    rw [run_append] at hrun
    obtain ⟨b', hbefore, -⟩ := Option.bind_eq_some_iff.1 hrun
    exact ⟨b', hbefore, recordSize_of_run (fun dest target hc => haddress dest target (List.mem_append_left _ hc)) hbefore⟩

/-- Calls that skip a text, load its address, use a large immediate, divide, and jump back. -/
def skippedText : List Call := [
  .reserve .branch,
  .embed [72, 0, 34],
  .patch ⟨0, 0⟩ 9 (.branch .lessEqual true),
  .address .rsp 6,
  .emit (.aluImmediate .cmp .rax 2147483648),
  .emit (.divideBy .rdx (.register .r12) .remainder),
  .jumpBack 9]

example : (transcript (recordOf skippedText)).take 9 = ["0000: jg L1", "L0:", "0006: .ascii \"H\\x00\\\"\"", "L1:",
    "0009: lea rsp, [rip -> L0]", "0010: mov [rsp - 8], rbx", "0015: mov rbx, 2147483648", "001f: cmp rax, rbx",
    "0022: mov rbx, [rsp - 8]"] := by decide +kernel

/-- The calls of `skippedText` are read back as their transcript. -/
theorem listing_of_run_skippedText : ∃ b code, start.run skippedText = some b ∧ b.assembler.finish = .ok code ∧
    code.listing unnamed [] = .ok (String.intercalate "\n" (transcript (recordOf skippedText))) := by
  have hsome : ((start.run skippedText).bind fun b => b.assembler.finish.toOption).isSome = true := by decide +kernel
  obtain ⟨code, hcode⟩ := Option.isSome_iff_exists.1 hsome
  obtain ⟨b, hrun, hfinish⟩ := Option.bind_eq_some_iff.1 hcode
  have hfinish : b.assembler.finish = .ok code := by
    cases h : b.assembler.finish with
    | error e =>
      rw [h] at hfinish
      cases hfinish
    | ok c =>
      rw [h] at hfinish
      exact congrArg _ (Option.some.inj hfinish)
  have haddress : ∀ dest target, Call.address dest target ∈ skippedText → target.toNat < 2 ^ 63 := by
    intro dest target h
    simp only [skippedText, List.mem_cons, Call.address.injEq, reduceCtorEq, false_or, or_false, List.not_mem_nil] at h
    obtain ⟨-, rfl⟩ := h
    decide
  exact ⟨b, code, hrun, hfinish, (listing_of_run haddress hrun hfinish).1⟩

end Bench

end RegisterCompiler.X64
