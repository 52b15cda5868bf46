import CoroRpc.Idl.Header
import CoroRpc.Idl.Recovery
import Mathlib.Algebra.Order.BigOperators.Group.List
import Mathlib.Tactic.LinearCombination

namespace CoroRpc.Idl

open Brackets Scan

def compile (config : GeneratorConfig) (content filename : Text) : Option Text :=
  (parse content).map fun doc => generateHeader config doc filename

-- the first block takes in all that come behind it: a struct as members, a service what reads as a method
def Source.Swallows (src : Source) : Prop := ∃ name fields b blocks, src.blocks = .struct name fields :: b :: blocks

section Closed

theorem nested_ident (i : Ident) : Nested brackets i.text := by
  apply nested_of_plain
  intro c hc
  have hident := List.all_eq_true.mp i.chars c hc
  have hnone : ∀ p ∈ brackets, identChar p.1 = false ∧ identChar p.2 = false := by decide
  constructor
  · rw [List.lookup_eq_none_iff]
    intro p hp
    rw [bne_iff_ne]
    rintro rfl
    exact Bool.false_ne_true ((hnone p hp).1.symm.trans hident)
  · rw [List.any_eq_false]
    intro p hp heq
    rw [← of_decide_eq_true heq] at hident
    exact Bool.false_ne_true ((hnone p hp).2.symm.trans hident)

theorem Decl.closed_readField (d : Decl) : d.readField.Closed := ⟨nested_ident d.name, nested_ident d.type⟩

theorem Signature.closed_readMethod (m : Signature) : m.readMethod.Closed := by
  refine ⟨nested_ident m.name, ?_, nested_ident m.returnType⟩
  intro p hp
  obtain ⟨d, -, rfl⟩ := List.mem_map.mp hp
  exact ⟨nested_ident d.name, nested_ident d.type⟩

theorem opening_not_mem {keyword : String} {c : Char} (hkey : c ∉ keyword.toList) (hc : identChar c = false)
    (hspace : c ≠ ' ') (hbrace : c ≠ '\x7b') (name : Ident) : c ∉ opening keyword name := by
  simp [opening, hkey, name.not_mem hc, hspace, hbrace]

/-- Among the lines of blocks only the signatures are read as methods. -/
theorem parseMethod_lines (b : Block) {l : Text} (hl : l ∈ b.lines) {m : MethodDef} (hm : parseMethod l = some m) :
    m.Closed := by
  have hparen {l : Text} (hl : '(' ∉ l) : parseMethod l = none := by
    rw [parseMethod, Scan.find, List.idxOf?_eq_none_iff.mpr hl]
  cases b with
  | struct name fields =>
      simp only [Block.lines, List.mem_cons, List.mem_append, List.mem_map, List.not_mem_nil, or_false] at hl
      obtain rfl | ⟨d, -, rfl⟩ | rfl := hl
      · rw [hparen (opening_not_mem (by decide) rfl (by decide) (by decide) name)] at hm
        cases hm
      · rw [hparen (by simp [Decl.line, d.not_mem_text (c := '(') rfl (by decide)])] at hm
        cases hm
      · cases hm
  | service name methods =>
      simp only [Block.lines, List.mem_cons, List.mem_append, List.mem_map, List.not_mem_nil, or_false] at hl
      obtain rfl | ⟨m', -, rfl⟩ | rfl := hl
      · rw [hparen (opening_not_mem (by decide) rfl (by decide) (by decide) name)] at hm
        cases hm
      · rw [parseMethod_line] at hm
        cases hm
        exact m'.closed_readMethod
      · cases hm

end Closed

section Excess

def openBraces (text : Text) : Int := excess '\x7b' '\x7d' text

theorem matches_braces : Matches brackets '\x7b' '\x7d' := by
  refine ⟨fun a => ?_, rfl, rfl⟩
  constructor
  · intro h
    obtain ⟨_, _, hsplit, -⟩ := List.lookup_eq_some_iff.mp h
    have hmem : (a, '\x7d') ∈ brackets := by
      rw [hsplit]
      exact List.mem_append_right _ List.mem_cons_self
    simpa [brackets] using hmem
  · rintro rfl
    rfl

theorem openBraces_append (a b : Text) : openBraces (a ++ b) = openBraces a + openBraces b := excess_append a b

theorem openBraces_flatMap {β : Type} (items : List β) (f : β → Text) :
    openBraces (items.flatMap f) = (items.map fun i => openBraces (f i)).sum := excess_flatMap items f

theorem openBraces_nil : openBraces [] = 0 := excess_nil

theorem openBraces_nested {text : Text} (h : Nested brackets text) : openBraces text = 0 := h.excess matches_braces

/-- The text around the name of a field has its own braces closed, as one sees when the name is empty. -/
theorem openBraces_fieldCode (f : Field) :
    openBraces (fieldCode f) = openBraces (toCppType f.type f.typeName) + openBraces f.name := by
  have hnone := openBraces_nested (Field.Closed.fieldCode (f := ⟨[], .custom, []⟩) ⟨nested_nil, nested_nil⟩)
  unfold fieldCode toCppType at hnone ⊢
  simp only [openBraces_append, openBraces_nil] at hnone ⊢
  linear_combination hnone

theorem openBraces_functionsText (name ser des : Text) :
    openBraces (functionsText name ser des) = 2 * openBraces name + openBraces ser + openBraces des := by
  have hnone := openBraces_nested (nested_functionsText nested_nil nested_nil nested_nil)
  unfold functionsText at hnone ⊢
  simp only [openBraces_append, openBraces_nil] at hnone ⊢
  linear_combination hnone

theorem openBraces_encode (name : Text) : openBraces (Stmt.encode name).text = openBraces name := by
  have hnone := openBraces_nested (nested_encode nested_nil)
  unfold Stmt.text at hnone ⊢
  simp only [openBraces_append, openBraces_nil] at hnone ⊢
  linear_combination hnone

theorem openBraces_decode (name : Text) :
    openBraces ((Stmt.decode name).text ++ (Stmt.check name).text ++ (Stmt.advance name).text) =
      4 * openBraces name := by
  have hnone := openBraces_nested (nested_decode nested_nil)
  unfold Stmt.text at hnone ⊢
  simp only [openBraces_append, openBraces_nil] at hnone ⊢
  linear_combination hnone

theorem openBraces_serializationCode (s : StructDef) :
    openBraces (generateSerializationCode s) = 2 * openBraces s.name +
      (s.fields.map fun f => openBraces f.name).sum + (s.fields.map fun f => 4 * openBraces f.name).sum := by
  rw [generateSerializationCode, openBraces_functionsText, openBraces_flatMap, openBraces_flatMap]
  simp only [openBraces_encode, openBraces_decode]

theorem openBraces_generateStruct (config : GeneratorConfig) (s : StructDef) :
    openBraces (generateStruct config s) = openBraces s.name + (s.fields.map fun f => openBraces (fieldCode f)).sum +
      if config.generateSerialization then openBraces (generateSerializationCode s) else 0 := by
  have hnone := openBraces_nested (StructDef.Closed.code (s := ⟨[], []⟩) ⟨nested_nil, by simp⟩ ⟨false, false⟩)
  unfold generateStruct at hnone ⊢
  simp only [openBraces_append, openBraces_nil, List.flatMap_nil, Bool.false_eq_true, if_false,
    openBraces_flatMap, apply_ite openBraces] at hnone ⊢
  linear_combination hnone

/-- A struct with a field that leaves a brace open leaves one open itself. -/
theorem openBraces_struct_pos (config : GeneratorConfig) {s : StructDef} (hname : openBraces s.name = 0)
    (hfields : ∀ f ∈ s.fields, 0 ≤ openBraces f.name ∧ 0 ≤ openBraces f.typeName) {f : Field} (hf : f ∈ s.fields)
    (hopen : 0 < openBraces f.name) : 0 < openBraces (generateStruct config s) := by
  have hcode : ∀ f ∈ s.fields, openBraces f.name ≤ openBraces (fieldCode f) := by
    intro f hf
    rw [openBraces_fieldCode]
    have htype : 0 ≤ openBraces (toCppType f.type f.typeName) := by
      cases f.type with
      | vector | map | custom => exact (hfields f hf).2
      | _ => exact (openBraces_nested (turns_text rfl)).ge
    omega
  have hsum : 0 < (s.fields.map fun f => openBraces (fieldCode f)).sum := by
    refine (hopen.trans_le (hcode f hf)).trans_le (List.single_le_sum ?_ _ (List.mem_map_of_mem hf))
    rw [List.forall_mem_map]
    exact fun g hg => (hfields g hg).1.trans (hcode g hg)
  have hser : 0 ≤ openBraces (generateSerializationCode s) := by
    rw [openBraces_serializationCode, hname]
    have hone : 0 ≤ (s.fields.map fun f => openBraces f.name).sum := by
      apply List.sum_nonneg
      rw [List.forall_mem_map]
      exact fun g hg => (hfields g hg).1
    have hfour : 0 ≤ (s.fields.map fun f => 4 * openBraces f.name).sum := by
      apply List.sum_nonneg
      rw [List.forall_mem_map]
      exact fun g hg => Int.mul_nonneg (by decide) (hfields g hg).1
    omega
  rw [openBraces_generateStruct, hname]
  split
  · omega
  · omega

end Excess

section Swallowed

theorem parseField_opening {keyword : String} (hkey : keyword.toList.all identChar) (name : Ident) :
    parseField (opening keyword name) =
      some ⟨name.text ++ " \x7b".toList, parseType keyword.toList, keyword.toList⟩ := by
  have htight : Tight blank (name.text ++ " \x7b".toList) :=
    name.tight.append (t := ['\x7b']) (Tight.of_any rfl) name.ne_nil (List.cons_ne_nil _ _) [' ']
  have hspace : ' ' ∉ keyword.toList := fun hc => absurd (List.all_eq_true.mp hkey _ hc) (by decide)
  have hlast : (name.text ++ " \x7b".toList).getLast? ≠ some ';' := by
    rw [List.getLast?_append_of_ne_nil _ (by decide)]
    decide
  rw [opening, parseField, find_append hspace]
  simp only [List.take_left, List.drop_left, trim_tight (tight_of_word hkey), trim_space htight, if_neg hlast]

theorem trim_sublist (s : Text) : (trim s).Sublist s :=
  (List.rdropWhile_prefix _ _).sublist.trans (List.dropWhile_sublist _)

theorem parseField_sublist {line : Text} {f : Field} (h : parseField line = some f) :
    f.name.Sublist line ∧ f.typeName.Sublist line := by
  rw [parseField] at h
  split at h
  · cases h
  · next spacePos _ =>
      cases h
      have hname := (trim_sublist (line.drop spacePos)).trans (List.drop_sublist _ _)
      refine ⟨?_, (trim_sublist _).trans (List.take_sublist _ _)⟩
      dsimp only
      split
      · exact (List.dropLast_sublist _).trans hname
      · exact hname

theorem openBraces_of_notMem {line text : Text} (h : text.Sublist line) (hopen : '\x7b' ∉ line)
    (hclose : '\x7d' ∉ line) : openBraces text = 0 :=
  excess_of_notMem (fun hc => hopen (h.subset hc)) fun hc => hclose (h.subset hc)

/-- No line of a block is read as a field that closes a brace. -/
theorem parseField_lines (b : Block) {l : Text} (hl : l ∈ b.lines) {f : Field} (hf : parseField l = some f) :
    0 ≤ openBraces f.name ∧ 0 ≤ openBraces f.typeName := by
  have hbraces {l : Text} (hopen : '\x7b' ∉ l) (hclose : '\x7d' ∉ l) (hf : parseField l = some f) :
      0 ≤ openBraces f.name ∧ 0 ≤ openBraces f.typeName := by
    obtain ⟨hname, htype⟩ := parseField_sublist hf
    exact ⟨(openBraces_of_notMem hname hopen hclose).ge, (openBraces_of_notMem htype hopen hclose).ge⟩
  have hopening {keyword : String} (hkey : keyword.toList.all identChar) (name : Ident)
      (hf : parseField (opening keyword name) = some f) : 0 ≤ openBraces f.name ∧ 0 ≤ openBraces f.typeName := by
    rw [parseField_opening hkey] at hf
    cases hf
    have hword : ∀ c, identChar c = false → c ∉ keyword.toList :=
      fun c hc hmem => Bool.false_ne_true (hc.symm.trans (List.all_eq_true.mp hkey c hmem))
    constructor
    · rw [openBraces_append, openBraces_nested (nested_ident name)]
      decide
    · exact (openBraces_of_notMem (List.Sublist.refl _) (hword _ rfl) (hword _ rfl)).ge
  cases b with
  | struct name fields =>
      simp only [Block.lines, List.mem_cons, List.mem_append, List.mem_map, List.not_mem_nil, or_false] at hl
      obtain rfl | ⟨d, -, rfl⟩ | rfl := hl
      · exact hopening rfl name hf
      · rw [parseField_line] at hf
        cases hf
        exact ⟨(openBraces_nested (nested_ident d.name)).ge, (openBraces_nested (nested_ident d.type)).ge⟩
      · cases hf
  | service name methods =>
      simp only [Block.lines, List.mem_cons, List.mem_append, List.mem_map, List.not_mem_nil, or_false] at hl
      obtain rfl | ⟨m, -, rfl⟩ | rfl := hl
      · exact hopening rfl name hf
      · have hnot {c : Char} (hc : identChar c = false) (hspace : c ≠ ' ') (hcomma : c ≠ ',') (hopen : c ≠ '(')
            (hclose : c ≠ ')') (hsemi : c ≠ ';') : c ∉ m.line := by
          simp [Signature.line, m.returnType.not_mem hc, m.name.not_mem hc, not_mem_paramsText hc hspace hcomma,
            hspace, hopen, hclose, hsemi]
        exact hbraces (hnot rfl (by decide) (by decide) (by decide) (by decide) (by decide))
          (hnot rfl (by decide) (by decide) (by decide) (by decide) (by decide)) hf
      · cases hf

theorem parseField_blocks {blocks : List Block} {f : Field}
    (hf : f ∈ (blocks.flatMap Block.lines).filterMap parseField) :
    0 ≤ openBraces f.name ∧ 0 ≤ openBraces f.typeName := by
  obtain ⟨l, hl, hparse⟩ := List.mem_filterMap.mp hf
  obtain ⟨b, -, hb⟩ := List.mem_flatMap.mp hl
  exact parseField_lines b hb hparse

/-- The line that opens a block is read as a field whose name has the brace. -/
theorem parseField_swallowed (b : Block) (blocks : List Block) :
    ∃ f ∈ ((b :: blocks).flatMap Block.lines).filterMap parseField, 0 < openBraces f.name := by
  have hopening (keyword : String) (hkey : keyword.toList.all identChar) (name : Ident) {lines : List Text}
      (hb : b.lines = opening keyword name :: lines) :
      ∃ f ∈ ((b :: blocks).flatMap Block.lines).filterMap parseField, 0 < openBraces f.name := by
    rw [List.flatMap_cons, hb, List.cons_append, List.filterMap_cons_some (parseField_opening hkey name)]
    refine ⟨_, List.mem_cons_self, ?_⟩
    rw [openBraces_append, openBraces_nested (nested_ident name)]
    decide
  cases b with
  | struct name fields => exact hopening "struct" rfl name rfl
  | service name methods => exact hopening "service" rfl name rfl

end Swallowed

theorem closed_namespaceName (src : Source) : Nested brackets ((src.namespaceName.map Ident.text).getD []) := by
  cases src.namespaceName with
  | none => exact nested_nil
  | some name => exact nested_ident name

theorem closed_readBlocks {ns : Text} (hns : Nested brackets ns) {blocks : List Block}
    (h : ¬∃ name fields b rest, blocks = .struct name fields :: b :: rest) :
    (readBlocks { namespaceName := ns } blocks).Closed := by
  cases blocks with
  | nil => exact ⟨hns, by simp [readBlocks], by simp [readBlocks]⟩
  | cons b rest =>
      cases b with
      | struct name fields =>
          cases rest with
          | nil =>
              refine ⟨hns, ?_, by simp [readBlocks]⟩
              simp only [readBlocks, List.nil_append, List.mem_singleton, forall_eq, List.flatMap_nil,
                List.filterMap_nil, List.append_nil]
              refine ⟨nested_ident name, ?_⟩
              simp only [List.forall_mem_map]
              exact fun d _ => d.closed_readField
          | cons b rest => exact absurd ⟨name, fields, b, rest, rfl⟩ h
      | service name methods =>
          refine ⟨hns, by simp [readBlocks], ?_⟩
          simp only [readBlocks, List.nil_append, List.mem_singleton, forall_eq]
          refine ⟨nested_ident name, ?_⟩
          simp only [List.forall_mem_append, List.forall_mem_map]
          refine ⟨fun m _ => m.closed_readMethod, fun m hm => ?_⟩
          obtain ⟨l, hl, hparse⟩ := List.mem_filterMap.mp hm
          obtain ⟨b, -, hb⟩ := List.mem_flatMap.mp hl
          exact parseMethod_lines b hb hparse

theorem openBraces_header {ns filename : Text} (hns : Nested brackets ns) (hfile : Nested brackets filename)
    (config : GeneratorConfig) (s : StructDef) :
    openBraces (generateHeader config { namespaceName := ns, structs := [s] } filename) =
      openBraces (generateStruct config s) := by
  have hempty : ({ namespaceName := ns } : IDLDocument).Closed := ⟨hns, by simp, by simp⟩
  have hnone := openBraces_nested (hempty.header config hfile)
  unfold generateHeader at hnone ⊢
  simp only [openBraces_append, openBraces_flatMap, List.map_nil, List.map_cons, List.sum_cons,
    List.sum_nil] at hnone ⊢
  linear_combination hnone

/-- The header for an IDL file in the documented syntax has its brackets in order unless the first block is a struct
and has another block behind it. -/
theorem compile_nested_iff {src : Source} {content : Text} (h : Rendered src content) (config : GeneratorConfig)
    {filename : Text} (hfile : Nested brackets filename) :
    ∃ header, compile config content filename = some header ∧ (Nested brackets header ↔ ¬src.Swallows) := by
  rw [compile, parse_rendered h]
  refine ⟨_, rfl, ?_⟩
  have hns := closed_namespaceName src
  constructor
  · rintro hnested ⟨name, fields, b, blocks, hblocks⟩
    rw [hblocks] at hnested
    obtain ⟨f, hf, hopen⟩ := parseField_swallowed b blocks
    have hzero := openBraces_nested hnested
    rw [readBlocks, List.nil_append, openBraces_header hns hfile] at hzero
    have hpos := openBraces_struct_pos config
      (s := ⟨name.text, fields.map Decl.readField ++ ((b :: blocks).flatMap Block.lines).filterMap parseField⟩)
      (openBraces_nested (nested_ident name)) ?_ (List.mem_append_right _ hf) hopen
    · omega
    · simp only [List.forall_mem_append, List.forall_mem_map]
      refine ⟨fun d _ => ?_, fun f hf => parseField_blocks hf⟩
      exact ⟨(openBraces_nested (nested_ident d.name)).ge, (openBraces_nested (nested_ident d.type)).ge⟩
  · intro hnot
    exact (closed_readBlocks hns hnot).header config hfile

theorem compile_nested_iff_two :
    (∃ header, compile {} calculatorText "calculator".toList = some header ∧ Nested brackets header) ∧
      ∃ header, compile {} twoStructsText "add".toList = some header ∧ ¬Nested brackets header := by
  have hfile : Nested brackets "calculator".toList ∧ Nested brackets "add".toList := ⟨turns_text rfl, turns_text rfl⟩
  obtain ⟨one, hone, hiff⟩ := compile_nested_iff rendered_calculator {} hfile.1
  obtain ⟨two, htwo, hiff'⟩ := compile_nested_iff rendered_twoStructs {} hfile.2
  refine ⟨⟨one, hone, hiff.mpr ?_⟩, two, htwo, ?_⟩
  · rintro ⟨name, fields, b, blocks, hblocks⟩
    cases hblocks
  · rw [hiff', not_not]
    exact ⟨_, _, _, _, rfl⟩

end CoroRpc.Idl
