import CoroRpc.Idl.Parser

namespace CoroRpc.Idl

open Scan

def identChar (c : Char) : Bool := c.isAlphanum || c = '_'

def isIdent (text : Text) : Bool := !text.isEmpty && text.all identChar && !text.head?.any Char.isDigit

structure Ident where
  text : Text
  valid : isIdent text

structure Decl where
  type : Ident
  name : Ident

structure Signature where
  returnType : Ident
  name : Ident
  params : List Decl

inductive Block
  | struct (name : Ident) (fields : List Decl)
  | service (name : Ident) (methods : List Signature)

structure Source where
  namespaceName : Option Ident
  blocks : List Block

section Meaning

def Ident.fieldType (type : Ident) : FieldType := (scalarNames.lookup type.text).getD .custom

def Decl.field (d : Decl) : Field := ⟨d.name.text, d.type.fieldType, d.type.text⟩

def Decl.param (d : Decl) : MethodParam := ⟨d.name.text, d.type.fieldType, d.type.text⟩

def Signature.method (m : Signature) : MethodDef where
  name := m.name.text
  params := m.params.map Decl.param
  returnType := { type := m.returnType.fieldType, typeName := m.returnType.text }

def Block.structs : Block → List StructDef
  | .struct name fields => [{ name := name.text, fields := fields.map Decl.field }]
  | .service _ _ => []

def Block.services : Block → List ServiceDef
  | .struct _ _ => []
  | .service name methods => [{ name := name.text, methods := methods.map Signature.method }]

def Source.document (src : Source) : IDLDocument where
  namespaceName := (src.namespaceName.map Ident.text).getD []
  structs := src.blocks.flatMap Block.structs
  services := src.blocks.flatMap Block.services

end Meaning

section Syntax

def Decl.text (d : Decl) : Text := d.type.text ++ ' ' :: d.name.text

def Decl.line (d : Decl) : Text := d.text ++ [';']

def paramsText (params : List Decl) : Text := ", ".toList.intercalate (params.map Decl.text)

def Signature.line (m : Signature) : Text :=
  m.returnType.text ++ ' ' :: (m.name.text ++ '(' :: (paramsText m.params ++ ");".toList))

def opening (keyword : String) (name : Ident) : Text := keyword.toList ++ ' ' :: (name.text ++ " \x7b".toList)

def brace : Text := ['\x7d']

def Block.lines : Block → List Text
  | .struct name fields => opening "struct" name :: (fields.map Decl.line ++ [brace])
  | .service name methods => opening "service" name :: (methods.map Signature.line ++ [brace])

def Source.lines (src : Source) : List Text :=
  (src.namespaceName.toList.map fun name => "namespace ".toList ++ name.text) ++ src.blocks.flatMap Block.lines

def Indentation (indent : Text) : Prop := indent.all fun c => c = ' ' || c = '\t'

instance (indent : Text) : Decidable (Indentation indent) := inferInstanceAs (Decidable (_ = true))

inductive Filler : Text → Prop
  | blank (indent : Text) (h : Indentation indent) : Filler indent
  | comment (indent text : Text) (h : Indentation indent) (ht : '\n' ∉ text) : Filler (indent ++ '#' :: text)

/-- The lines as they stand in the file: each with some indentation, and fillers anywhere. -/
inductive Layout : List Text → List Text → Prop
  | nil : Layout [] []
  | filler {lines file : List Text} {l : Text} (h : Filler l) (hl : Layout lines file) : Layout lines (l :: file)
  | line {lines file : List Text} (l indent : Text) (h : Indentation indent) (hl : Layout lines file) :
      Layout (l :: lines) ((indent ++ l) :: file)

/-- The last line of the file may be empty, so that the content may end with a line break or not. -/
def Rendered (src : Source) (content : Text) : Prop :=
  ∃ file, Layout src.lines file ∧ content = ['\n'].intercalate file

end Syntax

section Lines

theorem blank_iff {c : Char} : blank c = true ↔ c = ' ' ∨ c = '\t' ∨ c = '\r' ∨ c = '\n' := by
  simp [blank]

theorem blank_of_identChar {c : Char} (h : identChar c) : blank c = false := by
  rw [Bool.eq_false_iff, Ne, blank_iff]
  rintro (rfl | rfl | rfl | rfl) <;> exact absurd h (by decide)

theorem tight_of_word {word : Text} (h : word.all identChar) : Tight blank word := by
  apply Tight.of_any
  rw [List.any_eq_false]
  intro c hc
  exact Bool.eq_false_iff.mp (blank_of_identChar (List.all_eq_true.mp h c hc))

theorem trim_pad {pre s : Text} (hpre : ∀ c ∈ pre, blank c) (hs : Tight blank s) : trim (pre ++ s) = s := by
  have h := trim_append hpre hs [] (by simp)
  rwa [List.append_nil] at h

theorem Indentation.mem {indent : Text} (h : Indentation indent) {c : Char} (hc : c ∈ indent) :
    c = ' ' ∨ c = '\t' := by
  simpa using List.all_eq_true.mp h c hc

theorem Indentation.blank {indent : Text} (h : Indentation indent) : ∀ c ∈ indent, blank c := by
  intro c hc
  rcases h.mem hc with rfl | rfl <;> rfl

theorem Indentation.not_newline {indent : Text} (h : Indentation indent) : '\n' ∉ indent := by
  intro hc
  rcases h.mem hc with heq | heq <;> exact absurd heq (by decide)

theorem Ident.ne_nil (i : Ident) : i.text ≠ [] := by
  intro hnil
  have h := i.valid
  rw [hnil] at h
  cases h

theorem Ident.chars (i : Ident) : i.text.all identChar := by
  have h := i.valid
  simp only [isIdent, Bool.and_eq_true] at h
  exact h.1.2

theorem Ident.not_mem (i : Ident) {c : Char} (h : identChar c = false) : c ∉ i.text :=
  fun hc => Bool.false_ne_true (h.symm.trans (List.all_eq_true.mp i.chars c hc))

theorem Ident.tight (i : Ident) : Tight blank i.text := tight_of_word i.chars

structure Plain (l : Text) : Prop where
  head : ∃ c ∈ l.head?, identChar c ∨ c = '\x7d'
  tight : Tight blank l
  newline : '\n' ∉ l

theorem Plain.ne_nil {l : Text} (h : Plain l) : l ≠ [] := by
  rintro rfl
  obtain ⟨c, hc, -⟩ := h.head
  cases hc

theorem Plain.head_ne {l : Text} (h : Plain l) {c : Char} (hc : identChar c = false) (hbrace : c ≠ '\x7d') :
    l.head? ≠ some c := by
  obtain ⟨d, hd, hor⟩ := h.head
  rw [hd]
  rintro ⟨⟩
  exact hor.elim (fun hd => Bool.false_ne_true (hc.symm.trans hd)) hbrace

theorem Plain.not_skipped {l : Text} (h : Plain l) : skipped l = false := by
  have hhash := h.head_ne (c := '#') rfl (by decide)
  simp [skipped, h.ne_nil, hhash]

theorem Plain.ne_closing {l : Text} (h : Plain l) : l ≠ closing := by
  rintro rfl
  exact h.head_ne (c := '"') rfl (by decide) rfl

theorem Plain.trim {l : Text} (h : Plain l) {indent : Text} (hi : Indentation indent) : trim (indent ++ l) = l :=
  trim_pad hi.blank h.tight

theorem Filler.skipped {l : Text} (h : Filler l) : skipped (trim l) = true := by
  cases h with
  | blank _ h =>
      have hnil := trim_pad (s := []) h.blank (Tight.of_any rfl)
      rw [List.append_nil] at hnil
      rw [hnil]
      rfl
  | comment indent text h ht =>
      have hhead := head?_trim h.blank (show Idl.blank '#' = false from rfl) text
      simp [Idl.skipped, Idl.trim, hhead]

theorem Filler.not_newline {l : Text} (h : Filler l) : '\n' ∉ l := by
  cases h with
  | blank _ h => exact h.not_newline
  | comment indent text h ht => simp [h.not_newline, ht]

theorem Plain.of_word {word : Text} (hword : word.all identChar) (hne : word ≠ []) {mid : Text} (tail : Text)
    (htail : Tight blank tail) (htne : tail ≠ []) (hmid : '\n' ∉ mid) (htnl : '\n' ∉ tail) :
    Plain (word ++ (mid ++ tail)) := by
  have hchars := List.all_eq_true.mp hword
  have hwnl : '\n' ∉ word := fun hc => absurd (hchars _ hc) (by decide)
  refine ⟨⟨word.head hne, ?_, Or.inl (hchars _ (List.head_mem hne))⟩, ?_, ?_⟩
  · rw [List.head?_append_of_ne_nil _ hne, List.head?_eq_some_head hne]
    rfl
  · exact (tight_of_word hword).append htail hne htne mid
  · simp only [List.mem_append, not_or]
    exact ⟨hwnl, hmid, htnl⟩

theorem plain_brace : Plain brace :=
  ⟨⟨'\x7d', rfl, Or.inr rfl⟩, Tight.of_any rfl, by decide⟩

theorem Ident.not_newline (i : Ident) : '\n' ∉ i.text := i.not_mem rfl

theorem plain_namespace (name : Ident) : Plain ("namespace ".toList ++ name.text) := by
  have hword : "namespace".toList.all identChar := rfl
  have hmid : '\n' ∉ " ".toList := by decide
  exact Plain.of_word hword (by decide) name.text name.tight name.ne_nil hmid name.not_newline

theorem plain_opening {keyword : String} (hkey : keyword.toList.all identChar) (hne : keyword.toList ≠ [])
    (name : Ident) : Plain (opening keyword name) := by
  have hmid : '\n' ∉ ' ' :: (name.text ++ [' ']) := by
    simp [name.not_newline]
  have h := Plain.of_word hkey hne ['\x7b'] (Tight.of_any rfl) (List.cons_ne_nil _ _) hmid (by decide)
  rwa [List.cons_append, List.append_assoc] at h

theorem Decl.not_mem_text (d : Decl) {c : Char} (hc : identChar c = false) (hspace : c ≠ ' ') : c ∉ d.text := by
  simp [Decl.text, d.type.not_mem hc, d.name.not_mem hc, hspace]

theorem not_mem_paramsText {c : Char} (hc : identChar c = false) (hspace : c ≠ ' ') (hcomma : c ≠ ',')
    (params : List Decl) : c ∉ paramsText params := by
  apply not_mem_intercalate
  · simp [hspace, hcomma]
  · intro text ht
    obtain ⟨d, -, rfl⟩ := List.mem_map.mp ht
    exact d.not_mem_text hc hspace

theorem Decl.plain_line (d : Decl) : Plain d.line := by
  have hmid : '\n' ∉ ' ' :: d.name.text := by
    simp [d.name.not_newline]
  have h := Plain.of_word d.type.chars d.type.ne_nil [';'] (Tight.of_any rfl) (List.cons_ne_nil _ _) hmid
    (by decide)
  rwa [← List.append_assoc] at h

theorem Signature.plain_line (m : Signature) : Plain m.line := by
  have hmid : '\n' ∉ ' ' :: (m.name.text ++ '(' :: paramsText m.params) := by
    simp [m.name.not_newline, not_mem_paramsText (c := '\n') rfl (by decide) (by decide)]
  have h := Plain.of_word m.returnType.chars m.returnType.ne_nil ");".toList (Tight.of_any rfl)
    (by decide) hmid (by decide)
  rwa [List.cons_append, List.append_assoc, List.cons_append] at h

theorem Block.plain_lines (b : Block) : ∀ l ∈ b.lines, Plain l := by
  cases b with
  | struct name fields =>
      intro l hl
      simp only [Block.lines, List.mem_cons, List.mem_append, List.mem_map, List.not_mem_nil, or_false] at hl
      obtain rfl | ⟨d, -, rfl⟩ | rfl := hl
      · exact plain_opening rfl (by decide) name
      · exact d.plain_line
      · exact plain_brace
  | service name methods =>
      intro l hl
      simp only [Block.lines, List.mem_cons, List.mem_append, List.mem_map, List.not_mem_nil, or_false] at hl
      obtain rfl | ⟨m, -, rfl⟩ | rfl := hl
      · exact plain_opening rfl (by decide) name
      · exact m.plain_line
      · exact plain_brace

theorem Source.plain_lines (src : Source) : ∀ l ∈ src.lines, Plain l := by
  intro l hl
  rcases List.mem_append.mp hl with hl | hl
  · obtain ⟨name, -, rfl⟩ := List.mem_map.mp hl
    exact plain_namespace name
  · obtain ⟨b, -, hb⟩ := List.mem_flatMap.mp hl
    exact b.plain_lines l hb

end Lines

end CoroRpc.Idl
