import CoroRpc.Idl.Rendering

namespace CoroRpc.Idl

open Scan

section Items

def Decl.readField (d : Decl) : Field := ⟨d.name.text, parseType d.type.text, d.type.text⟩

def Decl.readParam (d : Decl) : MethodParam := ⟨d.name.text, parseType d.type.text, d.type.text⟩

def Signature.readMethod (m : Signature) : MethodDef where
  name := m.name.text
  params := m.params.map Decl.readParam
  returnType := { type := parseType m.returnType.text, typeName := m.returnType.text }

theorem trim_tight {s : Text} (h : Tight blank s) : trim s = s := by
  have hnone : ∀ c ∈ ([] : Text), blank c := by simp
  exact trim_pad hnone h

theorem trim_space {s : Text} (h : Tight blank s) : trim (' ' :: s) = s := by
  have hspace : ∀ c ∈ [' '], blank c := List.forall_mem_singleton.mpr rfl
  exact trim_pad hspace h

theorem parseField_line (d : Decl) : parseField d.line = some d.readField := by
  have htight : Tight blank (d.name.text ++ [';']) :=
    d.name.tight.append (Tight.of_any rfl) d.name.ne_nil (List.cons_ne_nil _ _) []
  have hline : d.line = d.type.text ++ ' ' :: (d.name.text ++ [';']) := by
    rw [Decl.line, Decl.text, List.append_assoc, List.cons_append]
  rw [hline, parseField, find_append (d.type.not_mem rfl)]
  simp only [List.take_left, List.drop_left, trim_tight d.type.tight, trim_space htight, List.getLast?_concat, if_pos,
    List.dropLast_concat]
  rfl

theorem parseField_brace : parseField brace = none := rfl

theorem parseMethod_brace : parseMethod brace = none := rfl

theorem parseParam_text {indent : Text} (hi : Indentation indent) (d : Decl) :
    parseParam (indent ++ d.text) = some d.readParam := by
  have htight : Tight blank d.text := d.type.tight.append d.name.tight d.type.ne_nil d.name.ne_nil [' ']
  rw [parseParam, trim_pad hi.blank htight, Decl.text, find_append (d.type.not_mem rfl)]
  simp only [List.take_left, List.drop_left, trim_tight d.type.tight, trim_space d.name.tight]
  rfl

theorem Indentation.not_comma {indent : Text} (hi : Indentation indent) : ',' ∉ indent := by
  intro hc
  rcases hi.mem hc with heq | heq <;> exact absurd heq (by decide)

theorem parseParams {indent : Text} (hi : Indentation indent) (d : Decl) (params : List Decl) :
    (getlines ',' (indent ++ paramsText (d :: params))).filterMap parseParam = (d :: params).map Decl.readParam := by
  induction params generalizing indent d with
  | nil =>
      have hcomma : ',' ∉ indent ++ d.text := by
        simp [hi.not_comma, d.not_mem_text (c := ',') rfl (by decide)]
      have hne : indent ++ d.text ≠ [] := by
        simp [Decl.text]
      rw [paramsText, List.map_singleton, List.intercalate_singleton, getlines_last hcomma hne,
        List.filterMap_cons_some (parseParam_text hi d)]
      rfl
  | cons d' params ih =>
      have hcomma : ',' ∉ indent ++ d.text := by
        simp [hi.not_comma, d.not_mem_text (c := ',') rfl (by decide)]
      have hsplit : indent ++ paramsText (d :: d' :: params) =
          (indent ++ d.text) ++ ',' :: ([' '] ++ paramsText (d' :: params)) := by
        simp only [paramsText, List.map_cons, List.intercalate_cons_cons, List.append_assoc]
        rfl
      rw [hsplit, getlines_append hcomma, List.filterMap_cons_some (parseParam_text hi d),
        ih (show Indentation [' '] from rfl) d']
      rfl

theorem parseParams_all (params : List Decl) :
    (getlines ',' (paramsText params)).filterMap parseParam = params.map Decl.readParam := by
  cases params with
  | nil => rfl
  | cons d params =>
      have hindent : Indentation [] := rfl
      exact parseParams hindent d params

theorem parseMethod_parens {before params : Text} (hopen : '(' ∉ before) (hclose : ')' ∉ before)
    (hparams : ')' ∉ params) (rest : Text) :
    parseMethod (before ++ '(' :: (params ++ ')' :: rest)) =
      (findLast ' ' (trim before)).map fun lastSpace =>
        { name := trim ((trim before).drop lastSpace)
          params := (getlines ',' params).filterMap parseParam
          returnType :=
            { type := parseType (trim ((trim before).take lastSpace))
              typeName := trim ((trim before).take lastSpace) } } := by
  have hassoc : before ++ '(' :: (params ++ ')' :: rest) = (before ++ '(' :: params) ++ ')' :: rest := by
    rw [List.append_assoc, List.cons_append]
  have hmem : ')' ∉ before ++ '(' :: params := by
    simp [hclose, hparams]
  have hfind : find ')' (before ++ '(' :: (params ++ ')' :: rest)) = some (before.length + (params.length + 1)) := by
    rw [hassoc, find_append hmem, List.length_append, List.length_cons]
  have hdrop : (before ++ '(' :: (params ++ ')' :: rest)).drop (before.length + 1) = params ++ ')' :: rest := by
    rw [← List.drop_drop, List.drop_left]
    rfl
  have hlt : before.length < before.length + (params.length + 1) := by omega
  have hcount : before.length + (params.length + 1) - before.length - 1 = params.length := by omega
  rw [parseMethod, find_append hopen, hfind]
  simp only [List.take_left, hdrop, if_pos hlt, hcount]
  cases findLast ' ' (trim before) <;> rfl

theorem parseMethod_line (m : Signature) : parseMethod m.line = some m.readMethod := by
  have hnot {c : Char} (hc : identChar c = false) (hspace : c ≠ ' ') :
      c ∉ m.returnType.text ++ ' ' :: m.name.text := by
    simp [m.returnType.not_mem hc, m.name.not_mem hc, hspace]
  have htight : Tight blank (m.returnType.text ++ ' ' :: m.name.text) :=
    m.returnType.tight.append m.name.tight m.returnType.ne_nil m.name.ne_nil [' ']
  have hline : m.line =
      (m.returnType.text ++ ' ' :: m.name.text) ++ '(' :: (paramsText m.params ++ ')' :: [';']) := by
    rw [List.append_assoc, List.cons_append]
    rfl
  rw [hline, parseMethod_parens (hnot rfl (by decide)) (hnot rfl (by decide))
    (not_mem_paramsText rfl (by decide) (by decide) m.params), trim_tight htight,
    findLast_append (m.name.not_mem rfl), Option.map_some]
  simp only [List.take_left, List.drop_left, trim_tight m.returnType.tight, trim_space m.name.tight, parseParams_all]
  rfl

end Items

section Runs

theorem parseBody_layout {α : Type} (item : Text → Option α) {lines file : List Text} (h : Layout lines file)
    (hplain : ∀ l ∈ lines, Plain l) (items : List α) :
    parseBody item file items = (items ++ lines.filterMap item, []) := by
  induction h generalizing items with
  | nil => simp [parseBody]
  | @filler lines file l hl _ ih =>
      have hne : trim l ≠ closing := by
        intro heq
        exact absurd (heq ▸ hl.skipped) (by decide)
      rw [parseBody]
      simp only [if_neg hne, hl.skipped, if_true, ih hplain]
  | @line lines file l indent hi _ ih =>
      have hl := hplain l List.mem_cons_self
      have ih := ih fun l' hl' => hplain l' (List.mem_cons_of_mem l hl')
      rw [parseBody]
      simp only [hl.trim hi, if_neg hl.ne_closing, hl.not_skipped, Bool.false_eq_true, if_false, ih]
      cases hitem : item l with
      | none => rw [List.filterMap_cons_none hitem]
      | some i =>
          rw [List.filterMap_cons_some hitem, ← List.singleton_append, ← List.append_assoc]

theorem parseLoop_filler {l : Text} (h : Filler l) (stream : List Text) (doc : IDLDocument) :
    parseLoop (l :: stream) doc = parseLoop stream doc := by
  rw [parseLoop, if_pos h.skipped]

theorem parseLoop_fillers {file : List Text} (h : Layout [] file) (doc : IDLDocument) : parseLoop file doc = doc := by
  generalize hlines : [] = lines at h
  induction h with
  | nil => rw [parseLoop]
  | filler hl _ ih => rw [parseLoop_filler hl, ih hlines]
  | line => cases hlines

theorem parseLoop_first {line : Text} {lines file : List Text} (h : Layout (line :: lines) file)
    (hline : Plain line) :
    ∃ next stream, trim next = line ∧ Layout lines stream ∧
      ∀ doc, parseLoop file doc = parseLoop (next :: stream) doc := by
  generalize hall : line :: lines = all at h
  induction h with
  | nil => cases hall
  | filler hl _ ih =>
      obtain ⟨next, stream, htrim, hlay, hloop⟩ := ih hall
      exact ⟨next, stream, htrim, hlay, fun doc => (parseLoop_filler hl _ doc).trans (hloop doc)⟩
  | @line lines' file l indent hi hl _ =>
      cases hall
      exact ⟨_, file, hline.trim hi, hl, fun _ => rfl⟩

/-- What the parser makes of the blocks: the first one has everything up to the end of the file. -/
def readBlocks (doc : IDLDocument) : List Block → IDLDocument
  | [] => doc
  | .struct name fields :: blocks =>
      { doc with
        structs := doc.structs ++
          [{ name := name.text
             fields := fields.map Decl.readField ++ (blocks.flatMap Block.lines).filterMap parseField }] }
  | .service name methods :: blocks =>
      { doc with
        services := doc.services ++
          [{ name := name.text
             methods := methods.map Signature.readMethod ++ (blocks.flatMap Block.lines).filterMap parseMethod }] }

section Opening

variable {keyword : String} (name : Ident)

theorem find_opening (hkey : '\x7b' ∉ keyword.toList) :
    find '\x7b' (opening keyword name) = some (keyword.length + (name.text.length + 2)) := by
  have hnot : '\x7b' ∉ keyword.toList ++ ' ' :: (name.text ++ [' ']) := by
    simp [hkey, name.not_mem (show identChar '\x7b' = false from rfl)]
  have hline : opening keyword name = (keyword.toList ++ ' ' :: (name.text ++ [' '])) ++ ['\x7b'] := by
    simp [opening]
  rw [hline, find_append hnot, ← String.length_toList]
  simp

theorem blockName_opening :
    blockName keyword (opening keyword name) (keyword.length + (name.text.length + 2)) = name.text := by
  have hspace : ∀ c ∈ [' '], blank c := List.forall_mem_singleton.mpr rfl
  have hcut : ((opening keyword name).drop keyword.length).take (name.text.length + 2) =
      [' '] ++ (name.text ++ [' ']) := by
    have hassoc : ' ' :: (name.text ++ " \x7b".toList) = (' ' :: (name.text ++ [' '])) ++ ['\x7b'] := by
      simp
    have hlen : name.text.length + 2 = (' ' :: (name.text ++ [' '])).length := by
      simp
    rw [opening, ← String.length_toList, List.drop_left, hassoc, hlen, List.take_left]
    rfl
  rw [blockName, Nat.add_sub_cancel_left, hcut]
  exact trim_append hspace name.tight [' '] hspace

end Opening

theorem parseStruct_layout {name : Ident} {lines stream : List Text} (h : Layout lines stream)
    (hplain : ∀ l ∈ lines, Plain l) :
    parseStruct stream (opening "struct" name) =
      (some { name := name.text, fields := lines.filterMap parseField }, []) := by
  rw [parseStruct, find_opening name (by decide)]
  simp only [parseBody_layout parseField h hplain, List.nil_append, blockName_opening]

theorem parseService_layout {name : Ident} {lines stream : List Text} (h : Layout lines stream)
    (hplain : ∀ l ∈ lines, Plain l) :
    parseService stream (opening "service" name) =
      (some { name := name.text, methods := lines.filterMap parseMethod }, []) := by
  rw [parseService, find_opening name (by decide)]
  simp only [parseBody_layout parseMethod h hplain, List.nil_append, blockName_opening]

/-- The lines of a block's own declarations are read, its closing brace is passed over, and the lines
that follow are read as well. -/
theorem filterMap_block {α β : Type} {item : Text → Option α} {line : β → Text} {read : β → α}
    (hitem : ∀ b, item (line b) = some (read b)) (hbrace : item brace = none) (decls : List β) (rest : List Text) :
    (decls.map line ++ [brace] ++ rest).filterMap item = decls.map read ++ rest.filterMap item := by
  have hread : item ∘ line = some ∘ read := funext hitem
  rw [List.filterMap_append, List.filterMap_append, List.filterMap_map, hread, List.filterMap_eq_map,
    List.filterMap_cons_none hbrace, List.filterMap_nil, List.append_nil]

section Steps

variable {next : Text} {name : Ident}

theorem parseLoop_namespace (h : trim next = "namespace ".toList ++ name.text) (stream : List Text)
    (doc : IDLDocument) :
    parseLoop (next :: stream) doc = parseLoop stream { doc with namespaceName := name.text } := by
  have hns : ("namespace".toList.isPrefixOf ("namespace ".toList ++ name.text)) = true := rfl
  have hname : parseNamespace ("namespace ".toList ++ name.text) = name.text := trim_space name.tight
  rw [parseLoop]
  simp only [h, (plain_namespace name).not_skipped, hns, hname, Bool.false_eq_true, if_false, if_true]

theorem parseLoop_struct (h : trim next = opening "struct" name) (hplain : Plain (opening "struct" name))
    (stream : List Text) (doc : IDLDocument) :
    parseLoop (next :: stream) doc =
      parseLoop (parseStruct stream (opening "struct" name)).2
        { doc with structs := doc.structs ++ (parseStruct stream (opening "struct" name)).1.toList } := by
  have hns : ("namespace".toList.isPrefixOf (opening "struct" name)) = false := rfl
  have hst : ("struct".toList.isPrefixOf (opening "struct" name)) = true := rfl
  rw [parseLoop]
  simp only [h, hplain.not_skipped, hns, hst, Bool.false_eq_true, if_false, if_true]

theorem parseLoop_service (h : trim next = opening "service" name) (hplain : Plain (opening "service" name))
    (stream : List Text) (doc : IDLDocument) :
    parseLoop (next :: stream) doc =
      parseLoop (parseService stream (opening "service" name)).2
        { doc with services := doc.services ++ (parseService stream (opening "service" name)).1.toList } := by
  have hns : ("namespace".toList.isPrefixOf (opening "service" name)) = false := rfl
  have hst : ("struct".toList.isPrefixOf (opening "service" name)) = false := rfl
  have hsv : ("service".toList.isPrefixOf (opening "service" name)) = true := rfl
  rw [parseLoop]
  simp only [h, hplain.not_skipped, hns, hst, hsv, Bool.false_eq_true, if_false, if_true]

end Steps

theorem parseLoop_blocks {blocks : List Block} {file : List Text} (h : Layout (blocks.flatMap Block.lines) file)
    (doc : IDLDocument) : parseLoop file doc = readBlocks doc blocks := by
  have hplain : ∀ l ∈ blocks.flatMap Block.lines, Plain l := by
    intro l hl
    obtain ⟨b, -, hb⟩ := List.mem_flatMap.mp hl
    exact b.plain_lines l hb
  cases blocks with
  | nil => exact parseLoop_fillers h doc
  | cons b blocks =>
      cases b with
      | struct name fields =>
          rw [List.flatMap_cons, Block.lines, List.cons_append] at h hplain
          have hopen := hplain _ List.mem_cons_self
          have hrest := fun l hl => hplain l (List.mem_cons_of_mem _ hl)
          obtain ⟨next, stream, htrim, hlay, hloop⟩ := parseLoop_first h hopen
          rw [hloop, parseLoop_struct htrim hopen, parseStruct_layout hlay hrest,
            filterMap_block parseField_line parseField_brace, parseLoop]
          rfl
      | service name methods =>
          rw [List.flatMap_cons, Block.lines, List.cons_append] at h hplain
          have hopen := hplain _ List.mem_cons_self
          have hrest := fun l hl => hplain l (List.mem_cons_of_mem _ hl)
          obtain ⟨next, stream, htrim, hlay, hloop⟩ := parseLoop_first h hopen
          rw [hloop, parseLoop_service htrim hopen, parseService_layout hlay hrest,
            filterMap_block parseMethod_line parseMethod_brace, parseLoop]
          rfl

theorem Layout.of_concat_nil {lines file : List Text} (h : Layout lines (file ++ [[]]))
    (hplain : ∀ l ∈ lines, Plain l) : Layout lines file := by
  induction file generalizing lines with
  | nil =>
      generalize hend : [] ++ [[]] = last at h
      cases h with
      | nil => cases hend
      | filler _ h =>
          cases hend
          exact h
      | line l _ hi h =>
          have hnil := (List.append_eq_nil_iff.mp (List.cons.inj hend).1.symm).2
          exact absurd hnil (hplain l List.mem_cons_self).ne_nil
  | cons l file ih =>
      cases h with
      | filler hl h => exact .filler hl (ih h hplain)
      | line l' indent hi h => exact .line l' indent hi (ih h fun m hm => hplain m (List.mem_cons_of_mem l' hm))

theorem Layout.not_newline {lines file : List Text} (h : Layout lines file) (hplain : ∀ l ∈ lines, Plain l) :
    ∀ l ∈ file, '\n' ∉ l := by
  induction h with
  | nil => simp
  | filler hl _ ih => exact List.forall_mem_cons.mpr ⟨hl.not_newline, ih hplain⟩
  | line l _ hi _ ih =>
      refine List.forall_mem_cons.mpr ⟨?_, ih fun m hm => hplain m (List.mem_cons_of_mem l hm)⟩
      rw [List.mem_append, not_or]
      exact ⟨hi.not_newline, (hplain l List.mem_cons_self).newline⟩

theorem Rendered.layout {src : Source} {content : Text} (h : Rendered src content) :
    Layout src.lines (getlines '\n' content) := by
  obtain ⟨file, hlay, rfl⟩ := h
  rcases getlines_intercalate (hlay.not_newline src.plain_lines) with heq | heq
  · rwa [heq]
  · apply Layout.of_concat_nil _ src.plain_lines
    rwa [heq]

theorem parse_rendered {src : Source} {content : Text} (h : Rendered src content) :
    parse content =
      some (readBlocks { namespaceName := (src.namespaceName.map Ident.text).getD [] } src.blocks) := by
  have hlay := h.layout
  rw [parse, Option.some_inj]
  cases hns : src.namespaceName with
  | none =>
      rw [Source.lines, hns] at hlay
      exact parseLoop_blocks hlay {}
  | some name =>
      rw [Source.lines, hns] at hlay
      obtain ⟨next, stream, htrim, hlay, hloop⟩ := parseLoop_first hlay (plain_namespace name)
      rw [hloop, parseLoop_namespace htrim]
      exact parseLoop_blocks hlay _

end Runs

section Recovery

def Block.types : Block → List Ident
  | .struct _ fields => fields.map Decl.type
  | .service _ methods => methods.flatMap fun m => m.returnType :: m.params.map Decl.type

def Ident.LikeContainer (type : Ident) : Prop := "vector".toList <+: type.text ∨ "map".toList <+: type.text

instance (type : Ident) : Decidable type.LikeContainer := inferInstanceAs (Decidable (_ ∨ _))

/-- At most one struct or service, and no type in it with a name like that of a container. -/
def Source.Recoverable (src : Source) : Prop :=
  src.blocks.length ≤ 1 ∧ ∀ b ∈ src.blocks, ∀ type ∈ b.types, ¬type.LikeContainer

instance (src : Source) : Decidable src.Recoverable := inferInstanceAs (Decidable (_ ∧ ∀ b ∈ src.blocks, _))

theorem scalar_not_container :
    ∀ e ∈ scalarNames, ¬"vector".toList <+: e.1 ∧ ¬"map".toList <+: e.1 := by
  decide

theorem parseType_eq_iff (type : Ident) : parseType type.text = type.fieldType ↔ ¬type.LikeContainer := by
  rw [parseType, Ident.fieldType, Ident.LikeContainer]
  cases hlook : scalarNames.lookup type.text with
  | some t =>
      obtain ⟨_, _, hsplit, -⟩ := List.lookup_eq_some_iff.mp hlook
      have hmem : (type.text, t) ∈ scalarNames := by
        rw [hsplit]
        exact List.mem_append_right _ List.mem_cons_self
      have hnot := scalar_not_container _ hmem
      simp only [Option.getD_some, true_iff, not_or]
      exact hnot
  | none =>
      simp only [List.isPrefixOf_iff_prefix, Option.getD_none]
      by_cases hvec : "vector".toList <+: type.text
      · rw [if_pos hvec]
        exact iff_of_false nofun (not_not_intro (Or.inl hvec))
      · by_cases hmap : "map".toList <+: type.text
        · rw [if_neg hvec, if_pos hmap]
          exact iff_of_false nofun (not_not_intro (Or.inr hmap))
        · rw [if_neg hvec, if_neg hmap]
          exact iff_of_true rfl (not_or.mpr ⟨hvec, hmap⟩)

theorem readField_eq_iff (d : Decl) : d.readField = d.field ↔ ¬d.type.LikeContainer := by
  rw [← parseType_eq_iff]
  simp [Decl.readField, Decl.field]

theorem readParam_eq_iff (d : Decl) : d.readParam = d.param ↔ ¬d.type.LikeContainer := by
  rw [← parseType_eq_iff]
  simp [Decl.readParam, Decl.param]

theorem readMethod_eq_iff (m : Signature) :
    m.readMethod = m.method ↔ ∀ type ∈ m.returnType :: m.params.map Decl.type, ¬type.LikeContainer := by
  rw [List.forall_mem_cons, List.forall_mem_map]
  simp [Signature.readMethod, Signature.method, parseType_eq_iff, readParam_eq_iff, and_comm]

theorem readBlocks_one_iff (doc : IDLDocument) (b : Block) :
    readBlocks doc [b] =
        { doc with structs := doc.structs ++ b.structs, services := doc.services ++ b.services } ↔
      ∀ type ∈ b.types, ¬type.LikeContainer := by
  cases b with
  | struct name fields => simp [readBlocks, Block.structs, Block.services, Block.types, readField_eq_iff]
  | service name methods =>
      rw [Block.types, List.forall_mem_flatMap]
      simp only [← readMethod_eq_iff]
      simp [readBlocks, Block.structs, Block.services]

def IDLDocument.count (doc : IDLDocument) : Nat := doc.structs.length + doc.services.length

theorem count_readBlocks (doc : IDLDocument) (b : Block) (blocks : List Block) :
    (readBlocks doc (b :: blocks)).count = doc.count + 1 := by
  cases b with
  | struct name fields =>
      simp only [readBlocks, IDLDocument.count, List.length_append, List.length_singleton]
      omega
  | service name methods =>
      simp only [readBlocks, IDLDocument.count, List.length_append, List.length_singleton]
      omega

theorem Source.count_document (src : Source) : src.document.count = src.blocks.length := by
  have hcount (blocks : List Block) :
      (blocks.flatMap Block.structs).length + (blocks.flatMap Block.services).length = blocks.length := by
    induction blocks with
    | nil => rfl
    | cons b blocks ih =>
        have hone : b.structs.length + b.services.length = 1 := by
          cases b <;> rfl
        simp only [List.flatMap_cons, List.length_append, List.length_cons]
        omega
  exact hcount src.blocks

/-- The parser gives a rendered document back in exactly this case: it does not see the end of a block. -/
theorem parse_recovers_iff {src : Source} {content : Text} (h : Rendered src content) :
    parse content = some src.document ↔ src.Recoverable := by
  rw [parse_rendered h, Option.some_inj, Source.Recoverable]
  obtain ⟨ns, blocks⟩ := src
  rcases blocks with _ | ⟨b, _ | ⟨b', blocks⟩⟩
  · simp [readBlocks, Source.document]
  · simpa [Source.document] using readBlocks_one_iff { namespaceName := (ns.map Ident.text).getD [] } b
  · -- the counts differ
    constructor
    · intro heq
      have hcount := congrArg IDLDocument.count heq
      rw [count_readBlocks, Source.count_document] at hcount
      simp [IDLDocument.count] at hcount
    · intro hrec
      simp at hrec

def calculator : Source where
  namespaceName := some ⟨"calculator".toList, rfl⟩
  blocks :=
    [.service ⟨"Calculator".toList, rfl⟩
      [{ returnType := ⟨"int32".toList, rfl⟩
         name := ⟨"add".toList, rfl⟩
         params :=
           [⟨⟨"AddRequest".toList, rfl⟩, ⟨"req".toList, rfl⟩⟩,
             ⟨⟨"int32".toList, rfl⟩, ⟨"bias".toList, rfl⟩⟩] }]]

def calculatorText : Text :=
  ("namespace calculator\n\n# the service\nservice Calculator \x7b\n".toList) ++
    "    int32 add(AddRequest req, int32 bias);\n\x7d\n".toList

theorem rendered_calculator : Rendered calculator calculatorText := by
  refine ⟨_, .line _ [] rfl (.filler (.blank [] rfl)
    (.filler (.comment [] " the service".toList rfl (by decide))
      (.line _ [] rfl (.line _ "    ".toList rfl
        (.line _ [] rfl (.filler (.blank [] rfl) .nil)))))), rfl⟩

theorem parse_recovers_calculator : parse calculatorText = some calculator.document :=
  (parse_recovers_iff rendered_calculator).mpr (by decide)

def twoStructs : Source where
  namespaceName := none
  blocks :=
    [.struct ⟨"AddRequest".toList, rfl⟩
        [⟨⟨"int32".toList, rfl⟩, ⟨"a".toList, rfl⟩⟩],
      .struct ⟨"AddResponse".toList, rfl⟩
        [⟨⟨"int32".toList, rfl⟩, ⟨"result".toList, rfl⟩⟩]]

def twoStructsText : Text :=
  "struct AddRequest \x7b\n    int32 a;\n\x7d\n".toList ++
    "struct AddResponse \x7b\n    int32 result;\n\x7d\n".toList

theorem rendered_twoStructs : Rendered twoStructs twoStructsText := by
  refine ⟨_, .line _ [] rfl (.line _ "    ".toList rfl
    (.line _ [] rfl (.line _ [] rfl
      (.line _ "    ".toList rfl (.line _ [] rfl
        (.filler (.blank [] rfl) .nil)))))), rfl⟩

/-- The second struct is read as two more fields of the first. -/
theorem parse_swallows_struct :
    Rendered twoStructs twoStructsText ∧ parse twoStructsText ≠ some twoStructs.document ∧
      parse twoStructsText = some
        { structs :=
            [{ name := "AddRequest".toList
               fields :=
                 [⟨"a".toList, .int32, "int32".toList⟩, ⟨"AddResponse \x7b".toList, .custom, "struct".toList⟩,
                   ⟨"result".toList, .int32, "int32".toList⟩] }] } := by
  refine ⟨rendered_twoStructs, ?_, ?_⟩ <;> rw [parse_rendered rendered_twoStructs] <;> decide

end Recovery

end CoroRpc.Idl
