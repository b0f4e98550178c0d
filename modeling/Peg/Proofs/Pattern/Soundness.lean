import Peg.Proofs.Lexing.Parsing
import Peg.Proofs.Matching.Marks
import Peg.Proofs.Pattern.Completeness
import Peg.Proofs.Pattern.Lexemes

/-!
Reading a parse tree of patterns undoes printing. Whatever the grammar of patterns
matches is read as syntax trees, and these are written with the characters of the tokens
that were matched. Every rule of the grammar passes this on from the rules that it names.
So a source compiles just if it is what some patterns are printed as, and then to what
these patterns denote; no source is what two different lists of patterns are printed as.
-/

namespace Peg.Pattern

/-- The characters of some tokens. -/
def chars (ts : List Token) : List Char :=
  ts.flatMap (·.value.toList)

theorem chars_append (ts us : List Token) : chars (ts ++ us) = chars ts ++ chars us :=
  List.flatMap_append

theorem chars_singleton (t : Token) : chars [t] = t.value.toList := by
  simp [chars]

def AllSpelled (ts : List Token) : Prop :=
  ∀ t ∈ ts, Spelled t.lexeme

theorem allSpelled_append {ts us : List Token} :
    AllSpelled (ts ++ us) ↔ AllSpelled ts ∧ AllSpelled us :=
  List.forall_mem_append

theorem Spelled.operator_chars {w : Lexeme} (h : Spelled w) {c : Char}
    (hw : w.1 = String.singleton c) : w.2 = [c] := by
  cases h with
  | @operator d hd =>
      have hlist := congrArg String.toList hw
      simpa [operatorLexeme] using hlist
  | plain d => exact absurd hw.symm (singleton_ne_literal c)
  | escaped d => exact absurd hw.symm (singleton_ne_special c)

theorem Spelled.literal_chars {w : Lexeme} (h : Spelled w) (hw : w.1 = "literal") :
    ∃ c : PlainChar, w.2 = [c.val] := by
  cases h with
  | @operator d hd => exact absurd hw (singleton_ne_literal d)
  | plain d => exact ⟨d, rfl⟩
  | escaped d => exact absurd hw (by simp)

theorem Spelled.special_chars {w : Lexeme} (h : Spelled w) (hw : w.1 = "special") :
    ∃ c, w.2 = ['\\', c] := by
  cases h with
  | @operator d hd => exact absurd hw (singleton_ne_special d)
  | plain d => exact absurd hw (by simp)
  | escaped d => exact ⟨d, rfl⟩

/-- What the parts of the node of a named rule are read as, and how that is written. -/
def Parsed (name : String) (ts : List Token) (os : List (Outline Token)) : Prop :=
  match name with
  | "root" => ∃ ps, ofOutlines? os = some ps ∧ printAll ps = chars ts
  | "operand" | "and" | "or" =>
      ∀ repetition, ∃ p, ofOutline? repetition (.node name os) = some p ∧
        p.print = chars ts ++ printMark repetition
  | "unary_operand" =>
      ∃ a, Atom.ofOutline? (.node "unary_operand" os) = some a ∧ a.print = chars ts
  | "class" | "special" =>
      ∃ a, Atom.ofOutline? (.node "unary_operand" [.node name os]) = some a ∧
        a.print = chars ts
  | "literal" =>
      ∃ t, ∃ c : PlainChar, os = [.item t] ∧ plainChar? t = some c ∧ chars ts = [c.val]
  | _ => ∃ p, ofOutline? none (.node name os) = some p ∧ p.print = chars ts

/-- The same where the tokens are spelled as their kinds demand. -/
def ParsedIfSpelled (name : String) (ts : List Token) (os : List (Outline Token)) : Prop :=
  AllSpelled ts → Parsed name ts os

section Rules

variable {ts : List Token} {os : List (Outline Token)}

theorem reads_name {name : String} (hts : AllSpelled ts)
    (h : (Rule.ref name).Reads ParsedIfSpelled ts os) :
    ∃ parts, os = [.node name parts] ∧ Parsed name ts parts := by
  obtain ⟨parts, rfl, hparts⟩ := Rule.reads_ref_iff.mp h
  exact ⟨parts, rfl, hparts hts⟩

theorem reads_end (h : (Rule.seq []).Reads ParsedIfSpelled ts os) : os = [] ∧ chars ts = [] := by
  obtain ⟨rfl, rfl⟩ := Rule.reads_seq_nil_iff.mp h
  exact ⟨rfl, rfl⟩

theorem reads_operator {key : String} (c : Char) (hkey : key = String.singleton c)
    {rs : List (Rule Token String)} (hts : AllSpelled ts)
    (h : (Rule.seq (.literal key :: rs)).Reads ParsedIfSpelled ts os) :
    ∃ t ys qs, os = .item t :: qs ∧ chars ts = c :: chars ys ∧ AllSpelled ys ∧
      (Rule.seq rs).Reads ParsedIfSpelled ys qs := by
  obtain ⟨xs, ys, ps, qs, hhead, htail, rfl, rfl⟩ := Rule.reads_seq_cons_iff.mp h
  obtain ⟨t, ht, rfl, rfl⟩ := Rule.reads_literal_iff.mp hhead
  obtain ⟨hxs, hys⟩ := allSpelled_append.mp hts
  have hvalue : t.value.toList = [c] :=
    (hxs t List.mem_cons_self).operator_chars (ht.trans hkey)
  refine ⟨t, ys, qs, rfl, ?_, hys, htail⟩
  rw [chars_append, chars_singleton, hvalue]
  rfl

theorem reads_part {r : Rule Token String} {rs : List (Rule Token String)}
    (hts : AllSpelled ts) (h : (Rule.seq (r :: rs)).Reads ParsedIfSpelled ts os) :
    ∃ xs ys ps qs, os = ps ++ qs ∧ chars ts = chars xs ++ chars ys ∧ AllSpelled xs ∧
      AllSpelled ys ∧ r.Reads ParsedIfSpelled xs ps ∧
      (Rule.seq rs).Reads ParsedIfSpelled ys qs := by
  obtain ⟨xs, ys, ps, qs, hhead, htail, rfl, rfl⟩ := Rule.reads_seq_cons_iff.mp h
  obtain ⟨hxs, hys⟩ := allSpelled_append.mp hts
  exact ⟨xs, ys, ps, qs, rfl, chars_append xs ys, hxs, hys, hhead, htail⟩

theorem reads_named_part {name : String} {rs : List (Rule Token String)}
    (hts : AllSpelled ts) (h : (Rule.seq (.ref name :: rs)).Reads ParsedIfSpelled ts os) :
    ∃ xs ys parts qs, os = .node name parts :: qs ∧ chars ts = chars xs ++ chars ys ∧
      AllSpelled ys ∧ Parsed name xs parts ∧ (Rule.seq rs).Reads ParsedIfSpelled ys qs := by
  obtain ⟨xs, ys, ps, qs, rfl, hchars, hxs, hys, hhead, htail⟩ := reads_part hts h
  obtain ⟨parts, rfl, hparts⟩ := reads_name hxs hhead
  exact ⟨xs, ys, parts, qs, rfl, hchars, hys, hparts, htail⟩

/-- Of patterns that are written one after the other, each is read. -/
theorem reads_star {r : Rule Token String} {write : Pattern → List Char}
    (hr : ∀ xs ps, r.Reads ParsedIfSpelled xs ps → AllSpelled xs →
      ∃ p, ofOutlines? ps = some [p] ∧ write p = chars xs)
    (hts : AllSpelled ts) (h : (Rule.star r).Reads ParsedIfSpelled ts os) :
    ∃ ps, ofOutlines? os = some ps ∧ ps.flatMap write = chars ts := by
  revert hts
  refine h.star_induction
    (P := fun ts os => AllSpelled ts →
      ∃ ps, ofOutlines? os = some ps ∧ ps.flatMap write = chars ts) ?_ ?_
  · intro _
    exact ⟨[], rfl, rfl⟩
  · intro xs ys os os' hread ih hts
    obtain ⟨hxs, hys⟩ := allSpelled_append.mp hts
    obtain ⟨p, hp, hwrite⟩ := hr xs os hread hxs
    obtain ⟨ps, hps, hwrites⟩ := ih hys
    refine ⟨p :: ps, ?_, ?_⟩
    · exact ofOutlines?_append hp hps
    · rw [List.flatMap_cons, hwrite, hwrites, chars_append]

theorem reads_plus {r : Rule Token String} {write : Pattern → List Char}
    (hr : ∀ xs ps, r.Reads ParsedIfSpelled xs ps → AllSpelled xs →
      ∃ p, ofOutlines? ps = some [p] ∧ write p = chars xs)
    (hts : AllSpelled ts) (h : (Rule.plus r).Reads ParsedIfSpelled ts os) :
    ∃ p ps, ofOutlines? os = some (p :: ps) ∧ write p ++ ps.flatMap write = chars ts := by
  obtain ⟨xs, ys, os, os', hhead, htail, rfl, rfl⟩ := Rule.reads_plus_iff.mp h
  obtain ⟨hxs, hys⟩ := allSpelled_append.mp hts
  obtain ⟨p, hp, hwrite⟩ := hr xs os hhead hxs
  obtain ⟨ps, hps, hwrites⟩ := reads_star hr hys htail
  refine ⟨p, ps, ?_, ?_⟩
  · exact ofOutlines?_append hp hps
  · rw [hwrite, hwrites, chars_append]

theorem reads_rule (hts : AllSpelled ts) (h : (Rule.ref "rule").Reads ParsedIfSpelled ts os) :
    ∃ p, ofOutlines? os = some [p] ∧ p.print = chars ts := by
  obtain ⟨parts, rfl, p, hp, hprint⟩ := reads_name hts h
  refine ⟨p, ?_, hprint⟩
  rw [ofOutlines?_node, hp]
  rfl

theorem parsed_root (hts : AllSpelled ts)
    (h : (Rule.untilEnd (.ref "rule")).Reads ParsedIfSpelled ts os) : Parsed "root" ts os := by
  have hrule (xs : List Token) (ps : List (Outline Token))
      (hread : (Rule.ref "rule").Reads ParsedIfSpelled xs ps) (hxs : AllSpelled xs) :=
    reads_rule hxs hread
  obtain ⟨ps, hps, hprint⟩ := reads_star hrule hts (Rule.reads_untilEnd_iff.mp h)
  refine ⟨ps, hps, ?_⟩
  rw [printAll_eq_flatMap, hprint]

theorem parsed_rule (hts : AllSpelled ts)
    (h : (Rule.alt [.ref "operation", .ref "operand"]).Reads ParsedIfSpelled ts os) :
    Parsed "rule" ts os := by
  obtain ⟨r, hr, hread⟩ := Rule.reads_alt_iff.mp h
  simp only [List.mem_cons, List.not_mem_nil, or_false] at hr
  rcases hr with rfl | rfl
  · obtain ⟨parts, rfl, p, hp, hprint⟩ := reads_name hts hread
    exact ⟨p, hp, hprint⟩
  · obtain ⟨parts, rfl, hparts⟩ := reads_name hts hread
    obtain ⟨p, hp, hprint⟩ := hparts none
    exact ⟨p, hp, by simpa [printMark] using hprint⟩

/-- All rules for an operation but the last are for an operand with a mark. -/
theorem parsed_operation (hts : AllSpelled ts)
    (h : (Rule.alt [.ref "zero_or_more", .ref "one_or_more", .ref "zero_or_one",
      .ref "until_empty", .ref "not"]).Reads ParsedIfSpelled ts os) :
    Parsed "operation" ts os := by
  obtain ⟨r, hr, hread⟩ := Rule.reads_alt_iff.mp h
  simp only [List.mem_cons, List.not_mem_nil, or_false] at hr
  rcases hr with rfl | rfl | rfl | rfl | rfl <;>
    obtain ⟨parts, rfl, p, hp, hprint⟩ := reads_name hts hread <;>
    exact ⟨p, hp, hprint⟩

theorem parsed_marked (repetition : Repetition) (hts : AllSpelled ts)
    (h : (Rule.seq [.ref "operand", .literal repetition.markKind]).Reads ParsedIfSpelled
      ts os) : Parsed repetition.ruleName ts os := by
  obtain ⟨xs, ys, parts, qs, rfl, hchars, hys, hparts, htail⟩ := reads_named_part hts h
  obtain ⟨t, zs, qs, rfl, hchars', -, hend⟩ := reads_operator _ rfl hys htail
  obtain ⟨rfl, hnil⟩ := reads_end hend
  obtain ⟨p, hp, hprint⟩ := hparts (some repetition)
  have hall : p.print = chars ts := by
    rw [hprint, hchars, hchars', hnil]
    rfl
  cases repetition with
  | star => exact ⟨p, hp, hall⟩
  | plus => exact ⟨p, hp, hall⟩
  | opt => exact ⟨p, hp, hall⟩
  | untilEnd => exact ⟨p, hp, hall⟩

theorem parsed_not (hts : AllSpelled ts)
    (h : (Rule.seq [.literal "^", .ref "unary_operand"]).Reads ParsedIfSpelled ts os) :
    Parsed "not" ts os := by
  obtain ⟨t, ys, qs, rfl, hchars, hys, htail⟩ := reads_operator '^' rfl hts h
  obtain ⟨xs, zs, parts, qs, rfl, hchars', -, hparts, hend⟩ := reads_named_part hys htail
  obtain ⟨rfl, hnil⟩ := reads_end hend
  obtain ⟨a, ha, hprint⟩ := hparts
  refine ⟨.except a, ?_, ?_⟩
  · change (Atom.ofOutline? (.node "unary_operand" parts)).map Pattern.except = _
    rw [ha]
    rfl
  · rw [hchars, hchars', hnil, List.append_nil, ← hprint]
    rfl

theorem parsed_operand (hts : AllSpelled ts)
    (h : (Rule.alt [.ref "and", .ref "or", .ref "unary_operand"]).Reads ParsedIfSpelled
      ts os) : Parsed "operand" ts os := by
  intro repetition
  obtain ⟨r, hr, hread⟩ := Rule.reads_alt_iff.mp h
  simp only [List.mem_cons, List.not_mem_nil, or_false] at hr
  rcases hr with rfl | rfl | rfl
  · obtain ⟨parts, rfl, hparts⟩ := reads_name hts hread
    exact hparts repetition
  · obtain ⟨parts, rfl, hparts⟩ := reads_name hts hread
    exact hparts repetition
  · obtain ⟨parts, rfl, a, ha, hprint⟩ := reads_name hts hread
    refine ⟨.atom a repetition, ?_, ?_⟩
    · change (Atom.ofOutline? (.node "unary_operand" parts)).map
        (Pattern.atom · repetition) = _
      rw [ha]
      rfl
    · rw [print, hprint]

theorem parsed_unary_operand (hts : AllSpelled ts)
    (h : (Rule.alt [.ref "literal", .ref "class", .ref "special"]).Reads ParsedIfSpelled
      ts os) : Parsed "unary_operand" ts os := by
  obtain ⟨r, hr, hread⟩ := Rule.reads_alt_iff.mp h
  simp only [List.mem_cons, List.not_mem_nil, or_false] at hr
  rcases hr with rfl | rfl | rfl
  · obtain ⟨parts, rfl, t, c, rfl, hc, hchars⟩ := reads_name hts hread
    refine ⟨.plain c, ?_, hchars.symm⟩
    rw [Atom.ofOutline?, hc]
    rfl
  · obtain ⟨parts, rfl, hparts⟩ := reads_name hts hread
    exact hparts
  · obtain ⟨parts, rfl, hparts⟩ := reads_name hts hread
    exact hparts

theorem parsed_literal (hts : AllSpelled ts)
    (h : (Rule.literal "literal").Reads ParsedIfSpelled ts os) : Parsed "literal" ts os := by
  obtain ⟨t, ht, rfl, rfl⟩ := Rule.reads_literal_iff.mp h
  obtain ⟨c, hc⟩ := (hts t (by simp)).literal_chars ht
  refine ⟨t, c, rfl, plainChar?_eq hc, ?_⟩
  rw [chars_singleton]
  exact hc

theorem parsed_special (hts : AllSpelled ts)
    (h : (Rule.literal "special").Reads ParsedIfSpelled ts os) : Parsed "special" ts os := by
  obtain ⟨t, ht, rfl, rfl⟩ := Rule.reads_literal_iff.mp h
  obtain ⟨c, hc⟩ := (hts t (by simp)).special_chars ht
  have hvalue : t.value.toList = ['\\', c] := hc
  refine ⟨.escaped c, ?_, ?_⟩
  · rw [Atom.ofOutline?, hvalue]
    rfl
  · rw [chars_singleton, hvalue]
    rfl

theorem parsed_class (hts : AllSpelled ts)
    (h : (Rule.seq [.literal "[", .ref "literal", .literal "-", .ref "literal",
      .literal "]"]).Reads ParsedIfSpelled ts os) : Parsed "class" ts os := by
  obtain ⟨t₁, ys, qs, rfl, hopen, hys, h⟩ := reads_operator '[' rfl hts h
  obtain ⟨xs, ys, parts, qs, rfl, hlo, hys, hloParts, h⟩ := reads_named_part hys h
  obtain ⟨t₂, ys, qs, rfl, hdash, hys, h⟩ := reads_operator '-' rfl hys h
  obtain ⟨xs', ys, parts', qs, rfl, hhi, hys, hhiParts, h⟩ := reads_named_part hys h
  obtain ⟨t₃, ys, qs, rfl, hclose, -, h⟩ := reads_operator ']' rfl hys h
  obtain ⟨rfl, hnil⟩ := reads_end h
  obtain ⟨lo, cLo, rfl, hcLo, hcharsLo⟩ := hloParts
  obtain ⟨hi, cHi, rfl, hcHi, hcharsHi⟩ := hhiParts
  refine ⟨.range cLo cHi, ?_, ?_⟩
  · rw [Atom.ofOutline?, hcLo, hcHi]
    rfl
  · rw [hopen, hlo, hdash, hhi, hclose, hnil, hcharsLo, hcharsHi]
    rfl

theorem parsed_and (hts : AllSpelled ts)
    (h : (Rule.seq [.literal "(", .plus (.ref "rule"), .literal ")"]).Reads ParsedIfSpelled
      ts os) : Parsed "and" ts os := by
  intro repetition
  obtain ⟨t₁, ys, qs, rfl, hopen, hys, h⟩ := reads_operator '(' rfl hts h
  obtain ⟨xs, ys, ps, qs, rfl, hrules, hxs, hys, hplus, h⟩ := reads_part hys h
  obtain ⟨t₂, ys, qs, rfl, hclose, -, h⟩ := reads_operator ')' rfl hys h
  obtain ⟨rfl, hnil⟩ := reads_end h
  obtain ⟨p, rest, hrest, hprint⟩ :=
    reads_plus (fun xs ps hread hxs => reads_rule hxs hread) hxs hplus
  refine ⟨.sequence p rest repetition, ?_, ?_⟩
  · have hparts : ofOutlines? (ps ++ [.item t₂]) = some (p :: rest ++ []) :=
      ofOutlines?_append hrest rfl
    rw [ofOutline?, ofOutlines?_item, hparts, List.append_nil]
  · rw [print, printAll_eq_flatMap, List.cons_append, hprint, hopen, hrules, hclose, hnil]
    simp

/-- A bar with the pattern behind it. -/
theorem reads_alternative (hts : AllSpelled ts)
    (h : (Rule.seq [.literal "|", .ref "rule"]).Reads ParsedIfSpelled ts os) :
    ∃ p, ofOutlines? os = some [p] ∧ '|' :: p.print = chars ts := by
  obtain ⟨t, ys, qs, rfl, hbar, hys, h⟩ := reads_operator '|' rfl hts h
  obtain ⟨xs, zs, ps, qs, rfl, hrule, hxs, -, hread, h⟩ := reads_part hys h
  obtain ⟨rfl, hnil⟩ := reads_end h
  obtain ⟨p, hp, hprint⟩ := reads_rule hxs hread
  refine ⟨p, ?_, ?_⟩
  · rw [ofOutlines?_item, List.append_nil, hp]
  · rw [hbar, hrule, hnil, hprint, List.append_nil]

theorem parsed_or (hts : AllSpelled ts)
    (h : (Rule.seq [.literal "(", .ref "rule", .plus (.seq [.literal "|", .ref "rule"]),
      .literal ")"]).Reads ParsedIfSpelled ts os) : Parsed "or" ts os := by
  intro repetition
  obtain ⟨t₁, ys, qs, rfl, hopen, hys, h⟩ := reads_operator '(' rfl hts h
  obtain ⟨xs, ys, ps, qs, rfl, hfirst, hxs, hys, hread, h⟩ := reads_part hys h
  obtain ⟨xs', ys, ps', qs, rfl, hothers, hxs', hys, hplus, h⟩ := reads_part hys h
  obtain ⟨t₂, ys, qs, rfl, hclose, -, h⟩ := reads_operator ')' rfl hys h
  obtain ⟨rfl, hnil⟩ := reads_end h
  obtain ⟨p, hp, hprint⟩ := reads_rule hxs hread
  obtain ⟨q, rest, hrest, hprints⟩ :=
    reads_plus (fun xs ps hread hxs => reads_alternative hxs hread) hxs' hplus
  refine ⟨.choice p q rest repetition, ?_, ?_⟩
  · have hparts : ofOutlines? (ps ++ (ps' ++ [.item t₂])) = some ([p] ++ (q :: rest ++ [])) :=
      ofOutlines?_append hp (ofOutlines?_append hrest rfl)
    rw [ofOutline?, ofOutlines?_item, hparts, List.append_nil]
    rfl
  · rw [print, printAlternatives_eq_flatMap, hprint, hopen, hfirst, hothers, hclose, hnil,
      ← hprints]
    simp

end Rules

/-- Every rule of the grammar is read and written as the patterns that it is for. -/
theorem closed_parsed : grammar.Closed ParsedIfSpelled := by
  intro name r ts os hrule h hts
  have hmem : (name, r) ∈ grammarRules := grammar.rule?_eq_some_iff.mp hrule
  simp only [grammarRules, List.mem_cons, List.not_mem_nil, or_false, Prod.mk.injEq] at hmem
  rcases hmem with ⟨rfl, rfl⟩ | ⟨rfl, rfl⟩ | ⟨rfl, rfl⟩ | ⟨rfl, rfl⟩ | ⟨rfl, rfl⟩ |
    ⟨rfl, rfl⟩ | ⟨rfl, rfl⟩ | ⟨rfl, rfl⟩ | ⟨rfl, rfl⟩ | ⟨rfl, rfl⟩ | ⟨rfl, rfl⟩ |
    ⟨rfl, rfl⟩ | ⟨rfl, rfl⟩ | ⟨rfl, rfl⟩ | ⟨rfl, rfl⟩
  · exact parsed_root hts h
  · exact parsed_rule hts h
  · exact parsed_operation hts h
  · exact parsed_marked .star hts h
  · exact parsed_marked .plus hts h
  · exact parsed_marked .opt hts h
  · exact parsed_marked .untilEnd hts h
  · exact parsed_not hts h
  · exact parsed_operand hts h
  · exact parsed_unary_operand hts h
  · exact parsed_literal hts h
  · exact parsed_special hts h
  · exact parsed_class hts h
  · exact parsed_and hts h
  · exact parsed_or hts h

/-- The patterns of a source are written as the source. -/
theorem printAll_of_parse {src : String} {ps : List Pattern} (h : parse src = .done ps) :
    printAll ps = src.toList := by
  simp only [parse, Outcome.bind_eq, Outcome.bind_eq_done_iff,
    Outcome.mapFailure_eq_done_iff] at h
  obtain ⟨tree, htree, hread⟩ := h
  obtain ⟨ts, os, hts, houtline, hparsed⟩ := Parser.parse_tells closed_parsed htree
  obtain ⟨hspelled, hchars⟩ := spelled_of_tokens hts
  obtain ⟨qs, hqs, hprint⟩ := hparsed hspelled
  simp only [houtline, hqs, Outcome.done.injEq] at hread
  rw [← hread, hprint]
  exact hchars

theorem parse_eq_done_iff {src : String} {ps : List Pattern} :
    parse src = .done ps ↔ printAll ps = src.toList :=
  ⟨printAll_of_parse, parse_of_printAll⟩

theorem printAll_injective {ps qs : List Pattern} (h : printAll ps = printAll qs) : ps = qs := by
  have hps : parse (String.ofList (printAll ps)) = .done ps := by
    rw [parse_eq_done_iff, String.toList_ofList]
  have hqs : parse (String.ofList (printAll ps)) = .done qs := by
    rw [parse_eq_done_iff, String.toList_ofList, h]
  exact Outcome.done.inj (hps.symm.trans hqs)

/-- A source compiles to a rule just if it is printed from patterns that denote the
rule. -/
theorem compile_eq_done_iff (src : String) (r : Rule Char Char) :
    compile src = .done r ↔
      ∃ ps : List Pattern, String.ofList (printAll ps) = src ∧ sourceMeaning ps = r := by
  constructor
  · intro h
    obtain ⟨ps, hps, rfl⟩ := Outcome.map_eq_done_iff.mp h
    refine ⟨ps, ?_, rfl⟩
    rw [parse_eq_done_iff.mp hps, String.ofList_toList]
  · rintro ⟨ps, rfl, rfl⟩
    apply compile_of_printAll
    rw [String.toList_ofList]

end Peg.Pattern
