import Mathlib.Data.Bool.AllAny
import TacticsDSL.Emitter.Pattern
import TacticsDSL.Semantics
import TacticsDSL.StmtsTheorems
import TacticsDSL.Utils.Terms

/-!
# Reading the pattern back

The printer writes no parentheses. What is read back is the sum of products that the tokens spell:
the right-hand side regrouped.
-/

namespace TacticsDSL

open Prog (Returns)
open Terms (Proper glue spelled)

/-! ## Tokens -/

/-- A token of one character. -/
def charToken (c : Char) : Lexeme := ⟨.char c, String.ofList [c]⟩

/-- The token of `+` or `*`. -/
def operatorToken (op : BinaryOp) : Lexeme :=
  ⟨op.kind, String.ofList [if op = .add then '+' else '*']⟩

mutual

/-- The tokens of the text of an expression that can be printed. -/
def Exp.tokens : Exp → List Lexeme
  | .ident _ n => [⟨.tkIdent, n⟩]
  | .apply _ _ n _ args => ⟨.tkIdent, n⟩ :: charToken '(' :: (argTokens args ++ [charToken ')'])
  | .binary _ op a b => a.tokens ++ operatorToken op :: b.tokens
  | _ => []

/-- The tokens of the arguments, with commas between them. -/
def argTokens : List Exp → List Lexeme
  | [] => []
  | [e] => e.tokens
  | e :: es => e.tokens ++ charToken ',' :: argTokens es

end

theorem argTokens_cons {es : List Exp} (e : Exp) (hes : es ≠ []) :
    argTokens (e :: es) = e.tokens ++ charToken ',' :: argTokens es := by
  rw [argTokens]
  exact fun h => hes h

/-- The text the printer writes for a token. -/
def Lexeme.printed (l : Lexeme) : String :=
  match l.kind with
  | .char '+' => " + "
  | .char '*' => " * "
  | .char ',' => ", "
  | _ => l.text

/-- The characters that are printed for tokens. -/
def printedText (ts : List Lexeme) : List Char := ts.flatMap fun l => l.printed.toList

@[simp] theorem printedText_nil : printedText [] = [] := rfl

@[simp] theorem printedText_cons (l : Lexeme) (ls : List Lexeme) :
    printedText (l :: ls) = l.printed.toList ++ printedText ls := List.flatMap_cons

@[simp] theorem printedText_append (ls ls' : List Lexeme) :
    printedText (ls ++ ls') = printedText ls ++ printedText ls' := List.flatMap_append

@[simp] theorem printed_name (n : String) : (Lexeme.mk .tkIdent n).printed = n := rfl

@[simp] theorem printed_open : (charToken '(').printed = String.ofList ['('] := rfl

@[simp] theorem printed_close : (charToken ')').printed = String.ofList [')'] := rfl

@[simp] theorem printed_comma : (charToken ',').printed = ", " := rfl

@[simp] theorem printed_operator {op : BinaryOp} (h : op = .add ∨ op = .mul) :
    (operatorToken op).printed = operatorText op := by
  rcases h with rfl | rfl <;> rfl

mutual

/-- The pieces of an expression have the characters of its tokens. -/
theorem Exp.Printable.text : ∀ e : Exp, e.Printable →
    e.pieces.flatMap String.toList = printedText e.tokens
  | .ident r n, _ => by simp [Exp.pieces, Exp.tokens]
  | .apply r rn n rl args, h => by
    have hargs := PrintableAll.text args h
    simp [Exp.pieces, Exp.tokens, hargs]
  | .binary r op a b, h => by
    have ha := Exp.Printable.text a h.2.1
    have hb := Exp.Printable.text b h.2.2
    simp [Exp.pieces, Exp.tokens, ha, hb, printed_operator h.1]

/-- The pieces of arguments have the characters of their tokens. -/
theorem PrintableAll.text : ∀ es : List Exp, PrintableAll es →
    (argPieces es).flatMap String.toList = printedText (argTokens es)
  | [], _ => rfl
  | [e], h => by
    rw [argPieces, argTokens]
    exact Exp.Printable.text e h.1
  | e :: e' :: es, h => by
    have he := Exp.Printable.text e h.1
    have hes := PrintableAll.text (e' :: es) h.2
    rw [argTokens_cons e (by simp), argPieces]
    · simp [he, hes]
    · simp

end

/-! ## Regrouping -/

/-- The operands put together, the first two first. -/
def Exp.join (op : BinaryOp) : List Exp → Exp
  | [] => .ident ⟨0, 0⟩ ""
  | e :: es => es.foldl (.binary ⟨0, 0⟩ op) e

/-- The expression of a sum of products. -/
def Exp.ofTerms (ts : List (List Exp)) : Exp := .join .add (ts.map (.join .mul))

mutual

/-- The sum of products that the text of an expression spells. -/
def Exp.terms : Exp → List (List Exp)
  | .apply r rn n rl args => [[.apply r rn n rl (regroupAll args)]]
  | .binary _ .add a b => a.terms ++ b.terms
  | .binary _ .mul a b => glue a.terms b.terms
  | e => [[e]]

/-- The arguments, each regrouped. -/
def regroupAll : List Exp → List Exp
  | [] => []
  | e :: es => .ofTerms e.terms :: regroupAll es

end

/-- The expression that the text spells. -/
def Exp.regroup (e : Exp) : Exp := .ofTerms e.terms

/-- There is a term, and every term has a factor. -/
theorem Exp.proper_terms : ∀ e : Exp, e.Printable → Proper e.terms
  | .ident _ _, _ => .single
  | .apply _ _ _ _ _, _ => .single
  | .binary _ op a b, h => by
    have ha := proper_terms a h.2.1
    have hb := proper_terms b h.2.2
    rcases h.1 with rfl | rfl
    · rw [terms]
      exact ha.append hb
    · rw [terms]
      exact ha.glue hb

theorem Exp.join_concat (op : BinaryOp) {es : List Exp} (e : Exp) (hes : es ≠ []) :
    Exp.join op (es ++ [e]) = .binary ⟨0, 0⟩ op (Exp.join op es) e := by
  obtain ⟨e', es, rfl⟩ := List.exists_cons_of_ne_nil hes
  simp [join]

/-- The tokens of joined expressions are theirs with the operator between them. -/
theorem Exp.tokens_join (op : BinaryOp) {es : List Exp} (hes : es ≠ []) :
    (Exp.join op es).tokens = [operatorToken op].intercalate (es.map Exp.tokens) := by
  induction es using List.reverseRecOn with
  | nil => exact absurd rfl hes
  | append_singleton es e ih =>
    by_cases hnil : es = []
    · subst hnil
      simp [join]
    · rw [join_concat op e hnil, tokens, ih hnil, List.map_append,
        Terms.intercalate_append (by simpa using hnil) (by simp)]
      simp

theorem Exp.tokens_ofTerms {ts : List (List Exp)} (h : Proper ts) :
    (Exp.ofTerms ts).tokens = spelled (operatorToken .add) (operatorToken .mul) Exp.tokens ts := by
  rw [ofTerms, tokens_join _ (by simpa using h.ne_nil), List.map_map, spelled]
  congr 1
  exact List.map_congr_left fun t ht => tokens_join _ (h.factors t ht)

mutual

/-- Regrouping changes no token. -/
theorem Exp.spelled_terms : ∀ e : Exp, e.Printable →
    spelled (operatorToken .add) (operatorToken .mul) Exp.tokens e.terms = e.tokens
  | .ident r n, _ => by simp [Exp.terms]
  | .apply r rn n rl args, h => by
    rw [Exp.terms, Terms.spelled_single, Exp.tokens, Exp.tokens, argTokens_regroupAll args h]
  | .binary r op a b, h => by
    have ha := Exp.spelled_terms a h.2.1
    have hb := Exp.spelled_terms b h.2.2
    have hpa := Exp.proper_terms a h.2.1
    have hpb := Exp.proper_terms b h.2.2
    rcases h.1 with rfl | rfl
    · rw [Exp.terms, Terms.spelled_append _ _ _ hpa.ne_nil hpb.ne_nil, ha, hb, Exp.tokens]
    · rw [Exp.terms, Terms.spelled_glue _ _ _ hpa hpb, ha, hb, Exp.tokens]

/-- Regrouped arguments have the same tokens. -/
theorem argTokens_regroupAll : ∀ es : List Exp, PrintableAll es →
    argTokens (regroupAll es) = argTokens es
  | [], _ => rfl
  | [e], h => by
    rw [regroupAll, regroupAll, argTokens, argTokens,
      Exp.tokens_ofTerms (Exp.proper_terms e h.1), Exp.spelled_terms e h.1]
  | e :: e' :: es, h => by
    rw [regroupAll, argTokens_cons _ (by simp [regroupAll]), argTokens_cons _ (by simp),
      argTokens_regroupAll (e' :: es) h.2, Exp.tokens_ofTerms (Exp.proper_terms e h.1),
      Exp.spelled_terms e h.1]

end

theorem Exp.Printable.tokens_regroup {e : Exp} (h : e.Printable) : e.regroup.tokens = e.tokens := by
  rw [Exp.regroup, Exp.tokens_ofTerms (Exp.proper_terms e h), Exp.spelled_terms e h]

/-! ## The tokens render the regrouped expression -/

/-- Operands that bind tighter than the operator are joined to a rendering. -/
theorem Exp.renders_join (op : BinaryOp) {es : List Exp} (hes : es ≠ [])
    (h : ∀ e ∈ es, Renders false e e.tokens ∧ op.prec < e.level) :
    Renders false (Exp.join op es) (Exp.join op es).tokens ∧ op.prec ≤ (Exp.join op es).level := by
  induction es using List.reverseRecOn with
  | nil => exact absurd rfl hes
  | append_singleton es e ih =>
    obtain ⟨hes', he⟩ := List.forall_mem_append.1 h
    obtain ⟨hrenders, hlevel⟩ := he e (List.mem_singleton_self e)
    by_cases hnil : es = []
    · subst hnil
      exact ⟨hrenders, hlevel.le⟩
    · obtain ⟨hjoin, hle⟩ := ih hnil hes'
      rw [join_concat op e hnil, tokens]
      exact ⟨.binary _ hjoin (Or.inr hle) rfl hrenders (Or.inr hlevel), le_refl op.prec⟩

/-- A factor: an expression that its tokens render, and that no operator splits. -/
structure Exp.Factor (e : Exp) : Prop where
  renders : Renders false e e.tokens
  level : 6 < e.level

theorem Exp.renders_ofTerms {ts : List (List Exp)} (h : Proper ts) (hfactors : Terms.All Factor ts) :
    Renders false (Exp.ofTerms ts) (Exp.ofTerms ts).tokens := by
  refine (renders_join .add (by simpa using h.ne_nil) (List.forall_mem_map.2 fun t ht => ?_)).1
  have hproduct := renders_join .mul (h.factors t ht)
    fun e he => ⟨(hfactors t ht e he).renders, (hfactors t ht e he).level⟩
  exact ⟨hproduct.1, lt_of_lt_of_le (by decide) hproduct.2⟩

mutual

/-- The factors of a regrouped expression are factors of the grammar. -/
theorem Exp.factors_terms : ∀ e : Exp, e.Printable → Terms.All Exp.Factor e.terms
  | .ident r n, _ => .single ⟨.ident r n, by simp [Exp.level]⟩
  | .apply r rn n rl args, h => by
    have hargs := rendersArgs_regroupAll args h
    exact .single ⟨.apply r rn rl rfl hargs rfl, by simp [Exp.level]⟩
  | .binary r op a b, h => by
    have ha := Exp.factors_terms a h.2.1
    have hb := Exp.factors_terms b h.2.2
    rcases h.1 with rfl | rfl
    · rw [Exp.terms]
      exact ha.append hb
    · rw [Exp.terms]
      exact ha.glue hb (Exp.proper_terms a h.2.1) (Exp.proper_terms b h.2.2)

/-- Regrouped arguments are rendered by their tokens. -/
theorem rendersArgs_regroupAll : ∀ es : List Exp, PrintableAll es →
    RendersArgs (regroupAll es) (argTokens (regroupAll es))
  | [], _ => .nil
  | [e], h => by
    have he := Exp.renders_ofTerms (Exp.proper_terms e h.1) (Exp.factors_terms e h.1)
    exact .single he
  | e :: e' :: es, h => by
    have he := Exp.renders_ofTerms (Exp.proper_terms e h.1) (Exp.factors_terms e h.1)
    have hes := rendersArgs_regroupAll (e' :: es) h.2
    rw [regroupAll, argTokens_cons _ (by simp [regroupAll])]
    exact .cons he rfl hes (by simp [regroupAll])

end

/-- The tokens of the text are a rendering of the regrouped expression. -/
theorem Exp.Printable.renders_regroup {e : Exp} (h : e.Printable) :
    Renders false e.regroup e.tokens := by
  have hrenders := Exp.renders_ofTerms (Exp.proper_terms e h) (Exp.factors_terms e h)
  rw [show Exp.ofTerms e.terms = e.regroup from rfl, h.tokens_regroup] at hrenders
  exact hrenders

/-! ## The text spells the tokens -/

/-- What can follow a name or a closing parenthesis in a pattern. -/
def EndsOperand (rest : List Char) : Prop := ∀ c ∈ rest.head?, c ∈ [' ', ')', ',']

/-- `(`, `)` and `,` start no longer token, whatever follows. -/
theorem matchToken_punctuation {c : Char} (hc : c ∈ ['(', ')', ',']) (rest : List Char) :
    matchToken ([c] ++ rest) = some (.char c, 1) := by
  have hall : ∀ c ∈ ['(', ')', ','], candidate [c] = some (.char c) ∧
      c.toLower ∉ ['i', 'n', 'f', 'a'] ∧ isIdent [c] = false ∧
      ∀ e ∈ tokenTable, e.1.head? = some c → e.1.length = 1 :=
    List.all_iff_forall_prop.1 (by decide +kernel)
  obtain ⟨hk, hspecial, hident, hkeys⟩ := hall c hc
  have hnumber : Strtod.startsSpecial ([] ++ c :: rest) = false :=
    Strtod.startsSpecial_append_cons hspecial rfl
  refine matchToken_eq_word (by simp) hk hnumber fun d _ => ⟨?_, ?_⟩
  · rw [isIdent_concat, hident, Bool.false_and]
  · refine walk_eq_none fun e he hprefix => ?_
    obtain ⟨more, hmore⟩ := hprefix
    have hlen := hkeys e he (by rw [← hmore]; rfl)
    rw [← hmore] at hlen
    simp at hlen

theorem validIdent_eq_false {c : Char} (hc : c ∈ [' ', '(', ')', ',']) (i : ℕ) :
    validIdent i c = false := by
  simp only [List.mem_cons, List.not_mem_nil, or_false] at hc
  rcases hc with rfl | rfl | rfl | rfl <;> simp [validIdent]

/-- An identifier is spelled, if what follows it can be in no word. -/
theorem spells_name {n : String} {rest : List Char} {ls : List Lexeme} (hn : IsName n.toList)
    (hrest : ∀ c ∈ rest.head?, c ∈ [' ', '(', ')', ',']) (h : Spells rest ls) :
    Spells (n.toList ++ rest) (⟨.tkIdent, n⟩ :: ls) := by
  have hspecial : ∀ c ∈ [' ', '(', ')', ','], c.toLower ∉ ['i', 'n', 'f', 'a'] :=
    List.all_iff_forall_prop.1 (by decide)
  obtain ⟨c, w, hw, -, -, hspace, hcomment⟩ := candidate_first hn.candidate hn.ne_nil
  have hscan := matchToken_word hn fun d hd =>
    hn.endsWord (hspecial d (hrest d hd)) (by rw [isIdent_concat, validIdent_eq_false (hrest d hd), Bool.and_false])
  have htoken := Spells.token ⟨c, w, hw, hspace, hcomment⟩ hscan (by decide) h
  rw [String.ofList_toList] at htoken
  exact htoken

theorem spells_punctuation {c : Char} {rest : List Char} {ls : List Lexeme}
    (hc : c ∈ ['(', ')', ',']) (h : Spells rest ls) :
    Spells (c :: rest) (charToken c :: ls) := by
  have hstarts : ∀ c ∈ ['(', ')', ','], isspace c = false ∧ c ≠ '#' :=
    List.all_iff_forall_prop.1 (by decide)
  exact .token ⟨c, [], rfl, hstarts c hc⟩ (matchToken_punctuation hc rest) (by simp) h

/-- A token of the table between blanks. -/
theorem spells_between {w : List Char} {k : Kind} {rest : List Char} {ls : List Lexeme}
    (hmem : (w, k) ∈ tokenTable) (hk : k ≠ .tkWhat) (h : Spells rest ls) :
    Spells (' ' :: (w ++ ' ' :: rest)) (⟨k, String.ofList w⟩ :: ls) := by
  have hw := spellable_of_mem hmem hk
  have hscan := hw.scans rest
  have hstarts := hw.starts
  rw [String.toList_ofList] at hscan hstarts
  exact .blank (.token hstarts hscan hw.ne_eof (.blank h))

theorem spells_operator {op : BinaryOp} {rest : List Char} {ls : List Lexeme}
    (hop : op = .add ∨ op = .mul) (h : Spells rest ls) :
    Spells ((operatorText op).toList ++ rest) (operatorToken op :: ls) := by
  rcases hop with rfl | rfl
  · exact spells_between (w := ['+']) (k := .char '+') (by decide) (by decide) h
  · exact spells_between (w := ['*']) (k := .char '*') (by decide) (by decide) h

mutual

/-- The printed text of an expression is spelled by its tokens. -/
theorem spells_exp : ∀ (e : Exp) (rest : List Char) (ls : List Lexeme), e.Printable →
    (∀ n ∈ e.names, IsName n.toList) → EndsOperand rest → Spells rest ls →
    Spells (printedText e.tokens ++ rest) (e.tokens ++ ls)
  | .ident r n, rest, ls, _, hnames, hrest, h => by
    have hn := hnames n (by simp [Exp.names])
    simp only [Exp.tokens, printedText_cons, printedText_nil, printed_name, List.append_nil]
    exact spells_name hn (fun c hc => by have := hrest c hc; simp at this ⊢; tauto) h
  | .apply r rn n rl args, rest, ls, he, hnames, hrest, h => by
    obtain ⟨hn, hargs⟩ := List.forall_mem_cons.1 hnames
    have hclose := spells_punctuation (c := ')') (by decide) h
    have hopen := spells_punctuation (c := '(') (by decide) (spells_args args _ _ he hargs (by simp [EndsOperand]) hclose)
    have hname := spells_name hn (by simp) hopen
    simpa [Exp.tokens] using hname
  | .binary r op a b, rest, ls, he, hnames, hrest, h => by
    obtain ⟨hna, hnb⟩ := List.forall_mem_append.1 hnames
    have hb := spells_exp b rest ls he.2.2 hnb hrest h
    have hop := spells_operator he.1 hb
    have hends : EndsOperand ((operatorText op).toList ++ (printedText b.tokens ++ rest)) := by
      rcases he.1 with rfl | rfl <;> simp [EndsOperand, operatorText]
    have ha := spells_exp a _ _ he.2.1 hna hends hop
    simpa [Exp.tokens, printed_operator he.1] using ha

/-- The printed text of arguments is spelled by their tokens. -/
theorem spells_args : ∀ (es : List Exp) (rest : List Char) (ls : List Lexeme), PrintableAll es →
    (∀ n ∈ namesOf es, IsName n.toList) → EndsOperand rest → Spells rest ls →
    Spells (printedText (argTokens es) ++ rest) (argTokens es ++ ls)
  | [], rest, ls, _, _, _, h => h
  | [e], rest, ls, he, hnames, hrest, h => by
    rw [argTokens]
    exact spells_exp e rest ls he.1 (List.forall_mem_append.1 hnames).1 hrest h
  | e :: e' :: es, rest, ls, he, hnames, hrest, h => by
    obtain ⟨hne, hnes⟩ := List.forall_mem_append.1 hnames
    have hes := spells_args (e' :: es) rest ls he.2 hnes hrest h
    have hcomma := spells_punctuation (c := ',') (by decide) (.blank hes)
    have hexp := spells_exp e _ _ he.1 hne (by simp [EndsOperand]) hcomma
    rw [argTokens_cons e (by simp)]
    simpa using hexp

end

/-! ## Statements -/

/-- The left-hand indices as arguments. -/
def indexExps (ns : List String) : List Exp := ns.map (.ident ⟨0, 0⟩)

/-- The token of `=` or `+=`. -/
def assignToken (op : AssignOp) : Lexeme :=
  ⟨op.kind, String.ofList (if op = .eq then ['='] else ['+', '='])⟩

/-- The tokens of the pattern. -/
def Stmt.tokens (s : Stmt) : List Lexeme :=
  ⟨.tkIdent, s.ident.name⟩ :: (charToken '(' :: (argTokens (indexExps s.indexNames) ++ [charToken ')']) ++
    assignToken s.assign :: s.rhs.tokens)

/-- The names of a statement are identifiers of the language. -/
structure Stmt.Named (s : Stmt) : Prop where
  ident : IsName s.ident.name.toList
  indices : ∀ n ∈ s.indexNames, IsName n.toList
  rhs : ∀ n ∈ s.rhs.names, IsName n.toList

theorem printable_indexExps (ns : List String) : PrintableAll (indexExps ns) := by
  induction ns with
  | nil => exact trivial
  | cons n ns ih => exact ⟨trivial, ih⟩

theorem names_indexExps (ns : List String) : namesOf (indexExps ns) = ns := by
  induction ns with
  | nil => rfl
  | cons n ns ih => simpa [indexExps, namesOf, Exp.names] using ih

/-- The indices on the left have the characters of their tokens. -/
theorem text_indexPieces (ns : List String) :
    (indexPieces ns).flatMap String.toList = printedText (argTokens (indexExps ns)) := by
  induction ns with
  | nil => rfl
  | cons n ns ih =>
    cases ns with
    | nil => simp [indexPieces, indexExps, argTokens, Exp.tokens]
    | cons n' ns =>
      rw [indexPieces, List.flatMap_cons, ih]
      · simp [indexExps, argTokens, Exp.tokens]
      · simp

theorem Stmt.Printable.toList_pattern {s : Stmt} (h : s.Printable) :
    s.pattern.toList = s.ident.name.toList ++ '(' :: (printedText (argTokens (indexExps s.indexNames)) ++
      ')' :: ((assignText s.assign).toList ++ printedText s.rhs.tokens)) := by
  unfold pattern
  simp only [String.toList_append, String.toList_join, text_indexPieces, h.rhs.text]
  rw [show "(".toList = ['('] from rfl, show ")".toList = [')'] from rfl]
  simp

/-- What is between the quotes of a printed statement spells its tokens. -/
theorem Stmt.Printable.spells_pattern {s : Stmt} (h : s.Printable) (hnames : s.Named) :
    Spells s.pattern.toList s.tokens := by
  have hrhs := spells_exp s.rhs [] [] h.rhs hnames.rhs (by simp [EndsOperand]) .nil
  rw [List.append_nil, List.append_nil] at hrhs
  have hassign : Spells ((assignText s.assign).toList ++ printedText s.rhs.tokens)
      (assignToken s.assign :: s.rhs.tokens) := by
    rcases h.assign with heq | heq
    · rw [heq]
      exact spells_between (w := ['=']) (k := .char '=') (by decide) (by decide) hrhs
    · rw [heq]
      exact spells_between (w := ['+', '=']) (k := .tkPlusEq) (by decide) (by decide) hrhs
  have hclose := spells_punctuation (c := ')') (by decide) hassign
  have hindices := spells_args (indexExps s.indexNames) _ _ (printable_indexExps _)
    (by rw [names_indexExps]; exact hnames.indices) (by simp [EndsOperand]) hclose
  have hopen := spells_punctuation (c := '(') (by decide) hindices
  rw [h.toList_pattern, tokens]
  simpa using spells_name hnames.ident (by simp) hopen

/-- The statement that the pattern spells. -/
def Stmt.regroup (s : Stmt) : Stmt :=
  { s with rhs := s.rhs.regroup, wheres := [], equivalent := none }

/-- The indices on the left are rendered by their tokens. -/
theorem separated_indexExps {ns : List Name} (hns : ns ≠ []) :
    Separated (.char ',') RendersName ns (argTokens (indexExps (ns.map Name.name))) := by
  induction ns with
  | nil => exact absurd rfl hns
  | cons n ns ih =>
    by_cases hnil : ns = []
    · subst hnil
      exact .single rfl
    · have hrest := ih hnil
      rw [List.map_cons, indexExps, List.map_cons, argTokens_cons _ (by simpa using hnil)]
      exact .cons rfl rfl hrest

/-- The regrouped statement is rendered by the tokens of its text. -/
theorem Stmt.Printable.renders_tokens {s : Stmt} (h : s.Printable) :
    RendersStmt s.regroup s.tokens := by
  have hindices : RendersIndices s.indices
      (charToken '(' :: (argTokens (indexExps s.indexNames) ++ [charToken ')'])) := by
    by_cases hnil : s.indices = []
    · rw [indexNames, hnil]
      exact .some (.nil rfl rfl)
    · exact .some (.some rfl (separated_indexExps hnil) rfl)
  have hstmt : RendersStmt s.regroup (⟨.tkIdent, s.ident.name⟩ ::
      (charToken '(' :: (argTokens (indexExps s.indexNames) ++ [charToken ')']) ++
        assignToken s.assign :: (s.rhs.tokens ++ ([] ++ [])))) :=
    .intro hindices rfl ⟨false, h.rhs.renders_regroup⟩ .none .none
  simpa [tokens] using hstmt

/-- `parseStmt` returns the statement from the text, and stops there. -/
def ReadsTo (text : String) (c : Tree) (L' : Lexer) : Prop :=
  ∃ L, Lexer.create text.toList = .ok L ∧ Returns Parser.parseStmt L c L'

theorem ReadsTo.unique {text : String} {c c' : Tree} {L L' : Lexer} (h : ReadsTo text c L)
    (h' : ReadsTo text c' L') : c = c' ∧ L = L' := by
  obtain ⟨M, hM, N, hN⟩ := h
  obtain ⟨M', hM', N', hN'⟩ := h'
  cases hM.symm.trans hM'
  have hrun := (hN (max N N') (by omega)).symm.trans (hN' (max N N') (by omega))
  simpa using hrun

theorem Parser.EndsStmt.eof : Parser.EndsStmt .tkEof :=
  ⟨⟨rfl, by decide, by decide⟩, by decide, by decide, by decide⟩

/-- A printed statement is read back regrouped, up to the end of the pattern. -/
theorem Stmt.Printable.readsTo {s : Stmt} (h : s.Printable) (hnames : s.Named) :
    ∃ c L', ReadsTo s.pattern c L' ∧ L'.cur.kind = .tkEof ∧ c.erase = s.regroup.toTree.erase := by
  obtain ⟨L, L', hcreate, hs, heof⟩ := (h.spells_pattern hnames).create
  have hends : Parser.EndsStmt L'.cur.kind := heof ▸ Parser.EndsStmt.eof
  obtain ⟨c, hc, hreturns⟩ := Parser.parseStmt_complete h.renders_tokens hs hends
  exact ⟨c, L', ⟨L, hcreate, hreturns⟩, heof, hc⟩

/-! ## Up to ranges -/

theorem kind_of_erase_eq {t t' : Tree} (h : t.erase = t'.erase) : t.kind = t'.kind := by
  have hkind : ∀ t : Tree, t.erase.kind = t.kind := by
    intro t
    cases t <;> rfl
  rw [← hkind t, h, hkind]

/-- Expressions that print and mean the same. -/
structure Exp.Same (e e' : Exp) : Prop where
  printable : e.Printable
  tokens : e.tokens = e'.tokens
  eval : ∀ I σ, e.eval I σ = e'.eval I σ

/-- Lists of expressions that print and mean the same. -/
structure SameAll (es es' : List Exp) : Prop where
  printable : PrintableAll es
  tokens : argTokens es = argTokens es'
  evals : ∀ I σ, evals I σ es = evals I σ es'

theorem Exp.Same.cons {e e' : Exp} {es es' : List Exp} (h : e.Same e') (hs : SameAll es es')
    (hnil : es = [] ↔ es' = []) : SameAll (e :: es) (e' :: es') := by
  refine ⟨⟨h.printable, hs.printable⟩, ?_, fun I σ => ?_⟩
  · by_cases hes : es = []
    · rw [hes, hnil.1 hes, argTokens, argTokens, h.tokens]
    · rw [argTokens_cons e hes, argTokens_cons e' (fun h => hes (hnil.2 h)), h.tokens, hs.tokens]
  · rw [TacticsDSL.evals, TacticsDSL.evals, h.eval, hs.evals]

mutual

/-- Trees that differ in their ranges only stand for the same expression. -/
theorem Exp.same_of_erase : ∀ e' : Exp, e'.Printable → ∀ e : Exp,
    e.toTree.erase = e'.toTree.erase → e.Same e'
  | .ident r' n', _, e, h => by
    have hkind : e.toTree.kind = .tkIdent := kind_of_erase_eq h
    obtain ⟨r, n, rfl⟩ := Exp.kind_toTree_eq_ident.1 hkind
    have hn : n = n' := by simpa [Exp.toTree, Tree.erase] using h
    subst hn
    exact ⟨trivial, rfl, fun _ _ => rfl⟩
  | .apply r' rn' n' rl' args', he', e, h => by
    have hkind : e.toTree.kind = .tkApply := kind_of_erase_eq h
    obtain ⟨r, rn, n, rl, args, rfl⟩ := Exp.kind_toTree_eq_apply.1 hkind
    have hboth : n = n' ∧ (args.map Exp.toTree).map Tree.erase = (args'.map Exp.toTree).map Tree.erase := by
      simpa [Exp.toTree, Tree.erase] using h
    obtain ⟨rfl, hargs⟩ := hboth
    obtain ⟨hprintable, htokens, heval⟩ := sameAll_of_erase args' he' args hargs
    exact ⟨hprintable, by rw [Exp.tokens, Exp.tokens, htokens], fun I σ => by
      rw [Exp.eval, Exp.eval, heval]⟩
  | .binary r' op a' b', he', e, h => by
    have hop : op ≠ .sub := by
      rcases he'.1 with rfl | rfl <;> decide
    have hkind : e.toTree.kind = op.kind := kind_of_erase_eq h
    obtain ⟨r, a, b, rfl⟩ := (Exp.kind_toTree_eq_binary hop).1 hkind
    have hboth : a.toTree.erase = a'.toTree.erase ∧ b.toTree.erase = b'.toTree.erase := by
      simpa [Exp.toTree, Tree.erase] using h
    have ha := Exp.same_of_erase a' he'.2.1 a hboth.1
    have hb := Exp.same_of_erase b' he'.2.2 b hboth.2
    exact ⟨⟨he'.1, ha.printable, hb.printable⟩, by rw [Exp.tokens, Exp.tokens, ha.tokens, hb.tokens],
      fun I σ => by rw [Exp.eval, Exp.eval, ha.eval, hb.eval]⟩

/-- Arguments with the same trees up to ranges print and mean the same. -/
theorem sameAll_of_erase : ∀ es' : List Exp, PrintableAll es' → ∀ es : List Exp,
    (es.map Exp.toTree).map Tree.erase = (es'.map Exp.toTree).map Tree.erase → SameAll es es'
  | [], _, es, h => by
    have hnil : es = [] := by simpa using h
    subst hnil
    exact ⟨trivial, rfl, fun _ _ => rfl⟩
  | e' :: es', hes', es, h => by
    obtain ⟨e, es, rfl⟩ : ∃ e es₁, es = e :: es₁ := by
      cases es with
      | nil => simp at h
      | cons e es => exact ⟨e, es, rfl⟩
    have hboth : e.toTree.erase = e'.toTree.erase ∧
        (es.map Exp.toTree).map Tree.erase = (es'.map Exp.toTree).map Tree.erase := by
      simpa using h
    have hnil : es = [] ↔ es' = [] := by
      have hlen := congrArg List.length hboth.2
      simp only [List.length_map] at hlen
      rw [← List.length_eq_zero_iff, hlen, List.length_eq_zero_iff]
    exact (Exp.same_of_erase e' hes'.1 e hboth.1).cons (sameAll_of_erase es' hes'.2 es hboth.2) hnil

end

/-- Statements that print the same pattern, and mean the same where there is no where clause. -/
structure Stmt.Same (s s' : Stmt) : Prop where
  printable : s.Printable
  ident : s.ident.name = s'.ident.name
  indices : s.indexNames = s'.indexNames
  assign : s.assign = s'.assign
  rhs : s.rhs.Same s'.rhs

/-- Statements with the same trees up to ranges print and mean the same. -/
theorem Stmt.same_of_erase {s s' : Stmt} (h : s.toTree.erase = s'.toTree.erase)
    (hp : s'.Printable) : s.Same s' := by
  have hparts : s.ident.name = s'.ident.name ∧
      (s.indices.map Name.toTree).map Tree.erase = (s'.indices.map Name.toTree).map Tree.erase ∧
      s.assign.kind = s'.assign.kind ∧ s.rhs.toTree.erase = s'.rhs.toTree.erase ∧
      (s.wheres.map Where.toTree).map Tree.erase = (s'.wheres.map Where.toTree).map Tree.erase := by
    simp only [toTree, Tree.erase_compound, List.map_cons, Tree.compound.injEq, List.cons.injEq] at h
    obtain ⟨-, -, hident, hindices, hassign, hrhs, hwheres, -⟩ := h
    exact ⟨by simpa [Name.toTree, Tree.erase] using hident, hindices.2.2, hassign.1, hrhs, hwheres.2.2⟩
  obtain ⟨hident, hindices, hassign, hrhs, hwheres⟩ := hparts
  have hassign := AssignOp.kind_injective hassign
  have hrhs := Exp.same_of_erase s'.rhs hp.rhs s.rhs hrhs
  have hindices : s.indexNames = s'.indexNames := by
    have hname : ∀ n : Name, Ident.name n.toTree.erase = .ok n.name := fun _ => rfl
    have hmap := congrArg (List.map Ident.name) hindices
    simp only [List.map_map, Function.comp_def, hname] at hmap
    have hinj : Function.Injective (Except.ok : String → Except Failure String) :=
      fun _ _ h => Except.ok.inj h
    rw [indexNames, indexNames]
    exact List.map_injective_iff.2 hinj (by simpa [List.map_map, Function.comp_def] using hmap)
  have hwheres : s.wheres = [] := by
    simpa [hp.wheres] using hwheres
  exact ⟨⟨hwheres, hassign ▸ hp.assign, hrhs.printable⟩, hident, hindices, hassign, hrhs⟩

/-- The same statements have the same pattern. -/
theorem Stmt.Same.pattern {s s' : Stmt} (h : s.Same s') (hp : s'.Printable) :
    s.pattern = s'.pattern := by
  rw [← String.toList_inj, h.printable.toList_pattern, hp.toList_pattern, h.ident, h.indices,
    h.assign, h.rhs.tokens]

/-! ## Names -/

mutual

/-- The names of an expression are identifiers among its tokens. -/
theorem Renders.names : ∀ {b : Bool} {e : Exp} {ts : List Lexeme}, Renders b e ts →
    ∀ n ∈ e.names, ⟨.tkIdent, n⟩ ∈ ts
  | _, _, _, .ident r n => by simp [Exp.names]
  | _, _, _, .const r rt hvalue htype => by simp [Exp.names]
  | _, _, _, .paren hl he hr => by
    have h := Renders.names he
    exact fun n hn => by simp [h n hn]
  | _, _, _, .apply r rn rl hl hargs hr => by
    have h := RendersArgs.names hargs
    exact List.forall_mem_cons.2 ⟨by simp, fun n hn => by simp [h n hn]⟩
  | _, _, _, .cast r rt ht hl he hr => by
    have h := Renders.names he
    exact fun n hn => by simp [h n hn]
  | _, _, _, .minMax r ht hl ha hc hb hr => by
    have ha := Renders.names ha
    have hb := Renders.names hb
    exact List.forall_mem_append.2 ⟨fun n hn => by simp [ha n hn], fun n hn => by simp [hb n hn]⟩
  | _, _, _, .unary r ht ha hp => by
    have h := Renders.names ha
    exact fun n hn => by simp [h n hn]
  | _, _, _, .binary r ha hp ht hb hq => by
    have ha := Renders.names ha
    have hb := Renders.names hb
    exact List.forall_mem_append.2 ⟨fun n hn => by simp [ha n hn], fun n hn => by simp [hb n hn]⟩
  | _, _, _, .ternary r hcond ho ht ha hu hb => by
    have hcond := Renders.names hcond
    have ha := Renders.names ha
    have hb := Renders.names hb
    refine List.forall_mem_append.2 ⟨List.forall_mem_append.2 ⟨fun n hn => ?_, fun n hn => ?_⟩,
      fun n hn => ?_⟩
    · simp [hcond n hn]
    · simp [ha n hn]
    · simp [hb n hn]

/-- The names of arguments are identifiers among their tokens. -/
theorem RendersArgs.names : ∀ {es : List Exp} {ts : List Lexeme}, RendersArgs es ts →
    ∀ n ∈ namesOf es, ⟨.tkIdent, n⟩ ∈ ts
  | _, _, .nil => by simp [namesOf]
  | _, _, .single h => by
    have h := Renders.names h
    simpa [namesOf] using h
  | _, _, .cons h hc hs hne => by
    have h := Renders.names h
    have hs := RendersArgs.names hs
    exact List.forall_mem_append.2 ⟨fun n hn => by simp [h n hn], fun n hn => by simp [hs n hn]⟩

end

/-- The names of indices are identifiers among their tokens. -/
theorem Separated.names {ns : List Name} {ts : List Lexeme}
    (h : Separated (.char ',') RendersName ns ts) : ∀ n ∈ ns, ⟨.tkIdent, n.name⟩ ∈ ts := by
  induction h with
  | single h =>
    cases h
    simp
  | cons h hc hs ih =>
    cases h
    refine List.forall_mem_cons.2 ⟨by simp, fun n hn => ?_⟩
    simp [ih n hn]

/-- The same with the brackets around the indices, or without indices. -/
theorem RendersIndices.names {ns : List Name} {ts : List Lexeme} (h : RendersIndices ns ts) :
    ∀ n ∈ ns, ⟨.tkIdent, n.name⟩ ∈ ts := by
  cases h with
  | none => simp
  | some h =>
    cases h with
    | nil => simp
    | some hl hs hr => exact fun n hn => by simp [hs.names n hn]

/-- The names of a parsed statement were tokens. -/
theorem Parser.parseStmt_named {fuel : ℕ} {L L' : Lexer} {c : Tree} (hL : L.Valid)
    (h : Prog.run (parseStmt fuel) L = (.ok c, L')) : ∃ s : Stmt, c = s.toTree ∧ s.Named := by
  obtain ⟨s, ts, rfl, hs, hR⟩ := parseStmt_sound fuel L c L' hL h
  have hnames : ∀ n, ⟨.tkIdent, n⟩ ∈ ts → IsName n.toList :=
    fun n hn => (hL.steps_spellable hs _ hn).2 rfl
  obtain ⟨hindices, ht, ⟨b, hrhs⟩, hequivalent, hwheres⟩ := hR
  refine ⟨s, rfl, hnames _ (by simp), List.forall_mem_map.2 fun n hn => hnames _ ?_, fun n hn => hnames _ ?_⟩
  · simp [hindices.names n hn]
  · simp [hrhs.names n hn]

/-! ## Printing again -/

mutual

/-- The characters of a printed expression. -/
theorem Exp.text_chars : ∀ e : Exp, e.Printable → ∀ c ∈ printedText e.tokens,
    c ∈ [' ', '(', ')', ',', '+', '*'] ∨ ∃ n ∈ e.names, c ∈ n.toList
  | .ident r n, _, c, hc => Or.inr ⟨n, by simp [Exp.names], by simpa [Exp.tokens] using hc⟩
  | .apply r rn n rl args, he, c, hc => by
    have hargs := args_chars args he c
    simp only [Exp.tokens, printedText_cons, printedText_append, printedText_nil, printed_name,
      printed_open, printed_close, String.toList_ofList, List.mem_append, List.mem_singleton,
      List.append_nil] at hc
    rcases hc with hc | rfl | hc | rfl
    · exact Or.inr ⟨n, by simp [Exp.names], hc⟩
    · exact Or.inl (by decide)
    · rcases hargs hc with h | ⟨m, hm, h⟩
      · exact Or.inl h
      · exact Or.inr ⟨m, by simp [Exp.names, hm], h⟩
    · exact Or.inl (by decide)
  | .binary r op a b, he, c, hc => by
    simp only [Exp.tokens, printedText_append, printedText_cons, List.mem_append,
      printed_operator he.1] at hc
    rcases hc with hc | hc | hc
    · rcases Exp.text_chars a he.2.1 c hc with h | ⟨m, hm, h⟩
      · exact Or.inl h
      · exact Or.inr ⟨m, by simp [Exp.names, hm], h⟩
    · have hop : ∀ c ∈ (operatorText op).toList, c ∈ [' ', '(', ')', ',', '+', '*'] := by
        rcases he.1 with rfl | rfl <;> exact List.all_iff_forall_prop.1 (by decide)
      exact Or.inl (hop c hc)
    · rcases Exp.text_chars b he.2.2 c hc with h | ⟨m, hm, h⟩
      · exact Or.inl h
      · exact Or.inr ⟨m, by simp [Exp.names, hm], h⟩

/-- What is printed for arguments: characters of names, brackets, commas, operators and blanks. -/
theorem args_chars : ∀ es : List Exp, PrintableAll es → ∀ c ∈ printedText (argTokens es),
    c ∈ [' ', '(', ')', ',', '+', '*'] ∨ ∃ n ∈ namesOf es, c ∈ n.toList
  | [], _, c, hc => by simp [argTokens] at hc
  | [e], he, c, hc => by
    rcases Exp.text_chars e he.1 c hc with h | ⟨m, hm, h⟩
    · exact Or.inl h
    · exact Or.inr ⟨m, by simp [namesOf, hm], h⟩
  | e :: e' :: es, he, c, hc => by
    simp only [argTokens_cons e (List.cons_ne_nil e' es), printedText_append, printedText_cons,
      printed_comma, List.mem_append] at hc
    rcases hc with hc | hc | hc
    · rcases Exp.text_chars e he.1 c hc with h | ⟨m, hm, h⟩
      · exact Or.inl h
      · exact Or.inr ⟨m, by simp [namesOf, hm], h⟩
    · have hcomma : ∀ c ∈ ", ".toList, c ∈ [' ', '(', ')', ',', '+', '*'] :=
        List.all_iff_forall_prop.1 (by decide)
      exact Or.inl (hcomma c hc)
    · rcases args_chars (e' :: es) he.2 c hc with h | ⟨m, hm, h⟩
      · exact Or.inl h
      · refine Or.inr ⟨m, ?_, h⟩
        rw [namesOf]
        exact List.mem_append_right _ hm

end

/-- The characters of an identifier can stand in one. -/
theorem validIdent_of_isIdentFrom {w : List Char} {i : ℕ} (h : isIdentFrom i w = true) :
    ∀ c ∈ w, ∃ j, validIdent j c = true := by
  induction w generalizing i with
  | nil => simp
  | cons c w ih =>
    rw [isIdentFrom, Bool.and_eq_true] at h
    exact List.forall_mem_cons.2 ⟨⟨i, h.1⟩, ih h.2⟩

theorem IsName.no_quote {w : List Char} (h : IsName w) : '"' ∉ w := by
  intro hquote
  obtain ⟨j, hj⟩ := validIdent_of_isIdentFrom h.ident.1 '"' hquote
  simp [validIdent] at hj

/-- The quotes around the pattern are the only ones. -/
theorem Stmt.Printable.no_quote {s : Stmt} (h : s.Printable) (hnames : s.Named) :
    '"' ∉ s.pattern.toList := by
  have hnotin : '"' ∉ [' ', '(', ')', ',', '+', '*'] := by decide
  rw [h.toList_pattern]
  simp only [List.mem_append, List.mem_cons, not_or]
  refine ⟨hnames.ident.no_quote, by decide, ?_, by decide, ?_, ?_⟩
  · intro hquote
    rcases args_chars _ (printable_indexExps _) _ hquote with h | ⟨n, hn, h⟩
    · exact hnotin h
    · rw [names_indexExps] at hn
      exact (hnames.indices n hn).no_quote h
  · rcases h.assign with heq | heq <;> rw [heq] <;> decide
  · intro hquote
    rcases Exp.text_chars _ h.rhs _ hquote with h | ⟨n, hn, h⟩
    · exact hnotin h
    · exact (hnames.rhs n hn).no_quote h

/-- Sums and products of what can be printed can be printed. -/
theorem Exp.printable_join {op : BinaryOp} (hop : op = .add ∨ op = .mul) {es : List Exp}
    (hes : ∀ e ∈ es, e.Printable) : (Exp.join op es).Printable := by
  cases es with
  | nil => exact trivial
  | cons e es =>
    rw [join]
    induction es generalizing e with
    | nil => exact hes e (List.mem_singleton_self e)
    | cons e' es ih =>
      obtain ⟨he, hes⟩ := List.forall_mem_cons.1 hes
      obtain ⟨he', hes⟩ := List.forall_mem_cons.1 hes
      exact ih (.binary ⟨0, 0⟩ op e e') (List.forall_mem_cons.2 ⟨⟨hop, he, he'⟩, hes⟩)

theorem Exp.printable_ofTerms {ts : List (List Exp)} (h : Terms.All Printable ts) :
    (Exp.ofTerms ts).Printable :=
  printable_join (Or.inl rfl) (List.forall_mem_map.2 fun t ht => printable_join (Or.inr rfl) (h t ht))

mutual

/-- The factors of what can be printed can be printed. -/
theorem Exp.printable_terms : ∀ e : Exp, e.Printable → Terms.All Exp.Printable e.terms
  | .ident r n, _ => .single trivial
  | .apply r rn n rl args, h => .single (printable_regroupAll args h)
  | .binary r op a b, h => by
    have ha := Exp.printable_terms a h.2.1
    have hb := Exp.printable_terms b h.2.2
    rcases h.1 with rfl | rfl
    · rw [Exp.terms]
      exact ha.append hb
    · rw [Exp.terms]
      exact ha.glue hb (Exp.proper_terms a h.2.1) (Exp.proper_terms b h.2.2)

theorem printable_regroupAll : ∀ es : List Exp, PrintableAll es → PrintableAll (regroupAll es)
  | [], _ => trivial
  | e :: es, h => ⟨Exp.printable_ofTerms (Exp.printable_terms e h.1), printable_regroupAll es h.2⟩

end

theorem Stmt.Printable.regroup {s : Stmt} (h : s.Printable) : s.regroup.Printable :=
  ⟨rfl, h.assign, Exp.printable_ofTerms (Exp.printable_terms s.rhs h.rhs)⟩

/-- The regrouped statement prints as the original. -/
theorem Stmt.Printable.pattern_regroup {s : Stmt} (h : s.Printable) :
    s.regroup.pattern = s.pattern := by
  rw [← String.toList_inj, h.regroup.toList_pattern, h.toList_pattern,
    show s.regroup.rhs.tokens = s.rhs.tokens from h.rhs.tokens_regroup]
  rfl

/-- The pattern printed for a parsed statement has no quote in it and is read back up to its end,
as a statement that prints the same record again. -/
theorem emitWhat_stable {L L₁ : Lexer} {fuel : ℕ} {c : Tree} {st st' : EmitState}
    (hL : L.Reachable) (hparse : Prog.run (Parser.parseStmt fuel) L = (.ok c, L₁))
    (hemit : Prog.run (emitWhat c) st = (.ok (), st')) :
    ∃ pattern, st'.text = st.text ++ recordHead pattern ∧ '"' ∉ pattern.toList ∧
      ∃ c' L', ReadsTo pattern c' L' ∧ L'.cur.kind = .tkEof ∧
        ∀ st₁, ∃ st₂, Prog.run (emitWhat c') st₁ = (.ok (), st₂) ∧
          st₂.text = st₁.text ++ recordHead pattern := by
  obtain ⟨s, rfl, hnames⟩ := Parser.parseStmt_named hL.valid hparse
  obtain ⟨hp, htext⟩ := run_emitWhat_ok hemit
  obtain ⟨c', L', hreads, heof, herase⟩ := hp.readsTo hnames
  refine ⟨s.pattern, htext, hp.no_quote hnames, c', L', hreads, heof, fun st₁ => ?_⟩
  obtain ⟨M, hM, N, hN⟩ := hreads
  obtain ⟨s', rfl, -⟩ := Parser.parseStmt_named (Lexer.Reachable.create hM).valid (hN N (le_refl N))
  have hsame := Stmt.same_of_erase herase hp.regroup
  obtain ⟨st₂, hst₂⟩ := hsame.printable.run_emitWhat st₁
  refine ⟨st₂, hst₂, ?_⟩
  rw [(run_emitWhat_ok hst₂).2, hsame.pattern hp.regroup, hp.pattern_regroup]

/-- The statement `a = (b + c) * d`. -/
def productStmt : Stmt :=
  .plain "a" [] .eq (.binary ⟨0, 0⟩ .mul
    (.binary ⟨0, 0⟩ .add (.ident ⟨0, 0⟩ "b") (.ident ⟨0, 0⟩ "c")) (.ident ⟨0, 0⟩ "d")) []

/-- The tokens of `a = (b + c) * d`. -/
def productTokens : List Lexeme :=
  [⟨.tkIdent, String.ofList ['a']⟩, charToken '=', charToken '(', ⟨.tkIdent, String.ofList ['b']⟩,
    charToken '+', ⟨.tkIdent, String.ofList ['c']⟩, charToken ')', charToken '*',
    ⟨.tkIdent, String.ofList ['d']⟩]

/-- The tokens render the statement. -/
theorem renders_productTokens : RendersStmt productStmt productTokens := by
  have hsum : Renders false (.binary ⟨0, 0⟩ .add (.ident ⟨0, 0⟩ "b") (.ident ⟨0, 0⟩ "c"))
      ([⟨.tkIdent, "b"⟩] ++ charToken '+' :: [⟨.tkIdent, "c"⟩]) :=
    .binary _ (.ident _ _) (Or.inr (by decide)) rfl (.ident _ _) (Or.inr (by decide))
  have hparen : Renders true (.binary ⟨0, 0⟩ .add (.ident ⟨0, 0⟩ "b") (.ident ⟨0, 0⟩ "c"))
      (charToken '(' :: (([⟨.tkIdent, "b"⟩] ++ charToken '+' :: [⟨.tkIdent, "c"⟩]) ++ [charToken ')'])) :=
    .paren rfl hsum rfl
  have hproduct : Renders false productStmt.rhs ((charToken '(' :: (([⟨.tkIdent, "b"⟩] ++ charToken '+' ::
      [⟨.tkIdent, "c"⟩]) ++ [charToken ')'])) ++ charToken '*' :: [⟨.tkIdent, "d"⟩]) :=
    .binary ⟨0, 0⟩ hparen (Or.inl rfl) rfl (.ident ⟨0, 0⟩ "d") (Or.inr (by decide))
  have hstmt : RendersStmt productStmt (⟨.tkIdent, "a"⟩ :: ([] ++ charToken '=' ::
      ((charToken '(' :: (([⟨.tkIdent, "b"⟩] ++ charToken '+' :: [⟨.tkIdent, "c"⟩]) ++
        [charToken ')']) ++ charToken '*' :: [⟨.tkIdent, "d"⟩]) ++ ([] ++ [])))) :=
    .intro .none rfl ⟨false, hproduct⟩ .none .none
  exact hstmt

/-- The text `a = ( b + c ) * d `. -/
def productText : List Char := spell productTokens

/-- The text is spelled by the tokens. -/
theorem spells_productText : Spells productText productTokens := by
  refine spells_spell ?_
  have hname : ∀ c ∈ ['a', 'b', 'c', 'd'], Spellable ⟨.tkIdent, String.ofList [c]⟩ := by
    intro c hc
    have hc : c ∈ ['T', 'a', 'b', 'c', 'd'] := List.mem_cons_of_mem _ hc
    exact Spellable.word (isName_letter hc) (by decide) (by decide)
  have hchar : ∀ c ∈ ['=', '(', ')', '+', '*'], Spellable (charToken c) := by
    have hmem : ∀ c ∈ ['=', '(', ')', '+', '*'], ([c], Kind.char c) ∈ tokenTable :=
      List.all_iff_forall_prop.1 (by decide)
    exact fun c hc => spellable_of_mem (hmem c hc) (by simp)
  simp only [productTokens, List.forall_mem_cons]
  exact ⟨hname _ (by decide), hchar _ (by decide), hchar _ (by decide), hname _ (by decide),
    hchar _ (by decide), hname _ (by decide), hchar _ (by decide), hchar _ (by decide),
    hname _ (by decide), by simp⟩

theorem printable_productStmt : productStmt.Printable :=
  ⟨rfl, Or.inl rfl, Or.inr rfl, ⟨Or.inl rfl, trivial, trivial⟩, trivial⟩

/-- The parser returns the statement from its text. -/
theorem parseStmt_productText :
    ∃ L L', ∃ s : Stmt, Lexer.create productText = .ok L ∧
      Returns Parser.parseStmt L s.toTree L' ∧ s.Same productStmt := by
  obtain ⟨L, L', hcreate, hs, heof⟩ := spells_productText.create
  have hends : Parser.EndsStmt L'.cur.kind := heof ▸ Parser.EndsStmt.eof
  obtain ⟨c, hc, N, hN⟩ := Parser.parseStmt_complete renders_productTokens hs hends
  obtain ⟨s, rfl, -⟩ := Parser.parseStmt_named (Lexer.Reachable.create hcreate).valid (hN N (le_refl N))
  exact ⟨L, L', s, hcreate, ⟨N, hN⟩, Stmt.same_of_erase hc printable_productStmt⟩

/-- The pattern of `a = (b + c) * d`, printed without the parentheses, is stable. -/
theorem emitWhat_stable_product :
    ∃ L fuel c L₁ st', Lexer.create productText = .ok L ∧
      Prog.run (Parser.parseStmt fuel) L = (.ok c, L₁) ∧
      Prog.run (emitWhat c) {} = (.ok (), st') ∧
      ∃ pattern, st'.text = EmitState.text {} ++ recordHead pattern ∧ '"' ∉ pattern.toList ∧
        ∃ c' L', ReadsTo pattern c' L' ∧ L'.cur.kind = .tkEof ∧
          ∀ st₁, ∃ st₂, Prog.run (emitWhat c') st₁ = (.ok (), st₂) ∧
            st₂.text = st₁.text ++ recordHead pattern := by
  obtain ⟨L, L₁, s, hcreate, ⟨N, hN⟩, hsame⟩ := parseStmt_productText
  obtain ⟨st', hst'⟩ := hsame.printable.run_emitWhat {}
  exact ⟨L, N, s.toTree, L₁, st', hcreate, hN N (le_refl N), hst',
    emitWhat_stable (.create hcreate) (hN N (le_refl N)) hst'⟩

end TacticsDSL
