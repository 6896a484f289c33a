import Mathlib.Data.Bool.AllAny
import TacticsDSL.Driver
import TacticsDSL.Emitter.TextTheorems

/-!
# The record the driver writes

What `emitTactic` writes for a tactic that the parser returns is not a record: the list of
builders is closed but never opened, and a tactic without a statement after `how` gets no record
at all.
-/

namespace TacticsDSL

open Prog (Triple)

/-! ## Names -/

theorem RendersArgs.strings {es : List Exp} {ts : List Lexeme} (h : RendersArgs es ts) :
    ∀ n ∈ stringsOf (es.map Exp.toTree), ⟨.tkIdent, n⟩ ∈ ts := by
  rw [← toTrees_eq_map, strings_toTrees]
  exact h.names

theorem RendersExp.strings {e : Exp} {ts : List Lexeme} (h : RendersExp e ts) :
    ∀ n ∈ e.toTree.strings, ⟨.tkIdent, n⟩ ∈ ts := by
  obtain ⟨b, h⟩ := h
  rw [Exp.strings_toTree]
  exact h.names

theorem RendersIndices.strings {ns : List Name} {ts : List Lexeme} (h : RendersIndices ns ts) :
    ∀ n ∈ stringsOf (ns.map Name.toTree), ⟨.tkIdent, n⟩ ∈ ts := by
  intro n hn
  obtain ⟨t, ht, hn⟩ := mem_stringsOf.1 hn
  obtain ⟨m, hm, rfl⟩ := List.mem_map.1 ht
  obtain rfl : n = m.name := by simpa [Name.toTree, Tree.strings, stringsOf] using hn
  exact h.names m hm

/-- The names of a where clause are identifiers among its tokens. -/
theorem RendersWhere.strings {w : Where} {ts : List Lexeme} (h : RendersWhere w ts) :
    ∀ n ∈ w.toTree.strings, ⟨.tkIdent, n⟩ ∈ ts := by
  cases h with
  | letBinding r ht he =>
    have he := he.strings
    simp only [Where.toTree, Name.toTree, Tree.strings, stringsOf, List.append_nil, List.singleton_append]
    exact List.forall_mem_cons.2 ⟨by simp, fun n hn => by simp [he n hn]⟩
  | inRange r ht hl hc hu =>
    have hl := hl.strings
    have hu := hu.strings
    simp only [Where.toTree, Name.toTree, Tree.strings, stringsOf, List.append_nil, List.singleton_append]
    refine List.forall_mem_cons.2 ⟨by simp, List.forall_mem_append.2 ⟨fun n hn => ?_, fun n hn => ?_⟩⟩
    · simp [hl n hn]
    · simp [hu n hn]
  | existing r ht he =>
    have he := he.strings
    simp only [Where.toTree, Tree.strings, stringsOf, List.append_nil]
    exact fun n hn => by simp [he n hn]

/-- The same for a list of where clauses. -/
theorem RendersWheres.strings {ws : List Where} {ts : List Lexeme} (h : RendersWheres ws ts) :
    ∀ n ∈ stringsOf (ws.map Where.toTree), ⟨.tkIdent, n⟩ ∈ ts := by
  cases h with
  | none => simp [stringsOf]
  | some ht h =>
    induction h with
    | single h =>
      have hw := h.strings
      simp only [List.map_singleton, stringsOf, List.append_nil]
      exact fun n hn => by simp [hw n hn]
    | cons h hc hs ih =>
      have hw := h.strings
      refine List.forall_mem_append.2 ⟨fun n hn => by simp [hw n hn], fun n hn => ?_⟩
      rcases List.mem_cons.1 (ih n hn) with hn | hn
      · simp [hn]
      · simp [hn]

/-- The names of the equivalent clause are identifiers among its tokens. -/
theorem RendersEquivalent.strings {o : Option EquivalentClause} {ts : List Lexeme}
    (h : RendersEquivalent o ts) :
    ∀ n ∈ stringsOf (o.toList.map EquivalentClause.toTree), ⟨.tkIdent, n⟩ ∈ ts := by
  cases h with
  | none => simp [stringsOf]
  | some r rl ht hl hargs hr =>
    have hargs := hargs.strings
    simp only [Option.toList_some, List.map_singleton, EquivalentClause.toTree, Tree.strings, stringsOf,
      List.append_nil, List.singleton_append]
    exact List.forall_mem_cons.2 ⟨by simp, fun n hn => by simp [hargs n hn]⟩

/-- The strings in the tree of a statement are texts of its tokens. -/
theorem RendersStmt.strings {s : Stmt} {ts : List Lexeme} (h : RendersStmt s ts) :
    ∀ n ∈ s.toTree.strings, ⟨.tkIdent, n⟩ ∈ ts := by
  obtain ⟨hindices, ht, hrhs, hequivalent, hwheres⟩ := h
  have hindices := hindices.strings
  have hrhs := hrhs.strings
  have hequivalent := hequivalent.strings
  have hwheres := hwheres.strings
  simp only [Stmt.toTree, Tree.strings, stringsOf, List.append_nil, List.nil_append]
  refine List.forall_mem_append.2 ⟨?_, List.forall_mem_append.2 ⟨fun n hn => ?_,
    List.forall_mem_append.2 ⟨fun n hn => ?_, List.forall_mem_append.2 ⟨fun n hn => ?_, fun n hn => ?_⟩⟩⟩⟩
  · simp [Name.toTree, Tree.strings, stringsOf]
  · simp [hindices n hn]
  · simp [hrhs n hn]
  · simp [hwheres n hn]
  · simp [hequivalent n hn]

theorem RendersStmts.strings {ss : List Stmt} {ts : List Lexeme} (h : RendersStmts ss ts) :
    ∀ s ∈ ss, ∀ n ∈ s.toTree.strings, ⟨.tkIdent, n⟩ ∈ ts := by
  induction h with
  | nil => simp
  | cons h hs ih =>
    have h := h.strings
    exact List.forall_mem_cons.2 ⟨fun n hn => by simp [h n hn], fun s hs n hn => by simp [ih s hs n hn]⟩

/-- All strings in the statements of the tactic are names. -/
def Tactic.Named (tac : Tactic) : Prop :=
  ∀ s ∈ tac.what :: tac.how, ∀ n ∈ s.toTree.strings, IsName n.toList

/-- The names in a tactic that the parser returns are identifiers. -/
theorem Parser.parseTactic_named {fuel : ℕ} {L L' : Lexer} {t : Tree} (hL : L.Valid)
    (h : Prog.run (parseTactic fuel) L = (.ok t, L')) : ∃ tac : Tactic, t = tac.toTree ∧ tac.Named := by
  obtain ⟨tac, ts, rfl, hs, hR⟩ := parseTactic_sound hL h
  have hnames : ∀ n, ⟨.tkIdent, n⟩ ∈ ts → IsName n.toList :=
    fun n hn => (hL.steps_spellable hs _ hn).2 rfl
  refine ⟨tac, rfl, List.forall_mem_cons.2 ?_⟩
  rcases hR with hR | hR
  · obtain ⟨hd, ho, hw, hwhat, hh, hhow, hr⟩ := hR
    have hwhat := hwhat.strings
    have hhow := hhow.strings
    exact ⟨fun n hn => hnames n (by simp [hwhat n hn]), fun s hs n hn => hnames n (by simp [hhow s hs n hn])⟩
  · obtain ⟨hd, ho, hw, hwhat, hhow⟩ := hR
    have hwhat := hwhat.strings
    exact ⟨fun n hn => hnames n (by simp [hwhat n hn]), by simp [hhow]⟩

namespace Tactic.Named

variable {tac : Tactic}

theorem noQuotes (h : tac.Named) : ∀ s ∈ tac.what :: tac.how, s.toTree.NoQuotes :=
  fun s hs n hn => (h s hs n hn).no_quote

/-- The pattern of a tactic with such names has such names. -/
theorem what (h : tac.Named) : tac.what.Named := by
  have hwhat := h tac.what (List.mem_cons_self ..)
  simp only [Stmt.toTree, Tree.strings, stringsOf, Exp.strings_toTree] at hwhat
  refine ⟨hwhat _ (by simp [Name.toTree, Tree.strings, stringsOf]), ?_, fun n hn => hwhat n (by simp [hn])⟩
  refine List.forall_mem_map.2 fun m hm => hwhat m.name ?_
  have hmem : m.name ∈ stringsOf (tac.what.indices.map Name.toTree) :=
    mem_stringsOf.2 ⟨m.toTree, List.mem_map_of_mem hm, by simp [Name.toTree, Tree.strings, stringsOf]⟩
  simp [hmem]

end Tactic.Named

/-! ## Records -/

/-- The statements whose builders are listed: those of the `how` part, or the pattern's own. -/
def Tactic.built (tac : Tactic) : Form → List Stmt
  | .split => tac.how
  | .joined => [tac.what]

/-- The emitter accepts the statements of the tactic, one after the other, and makes the
builders `bs`. -/
def Accepted (tac : Tactic) (f : Form) (st : EmitState) (bs : List Builder) : Prop :=
  ∃ st₁ st₂, Prog.run (emitWhat tac.what.toTree) st = (.ok (), st₁) ∧
    Prog.run (emitHows ((tac.built f).map Stmt.toTree)) st₁ = (.ok (), st₂) ∧
    st₂.os = st₁.os ++ bs.map .builder

/-- The quoted pattern, and then one list of the builders and the erase builder. -/
def Lists (pattern : String) (bs : List Builder) (text : String) : Prop :=
  ∃ before between blank₁ blank₂ blank₃ after : String,
    (∀ c ∈ (blank₁ ++ blank₂ ++ blank₃).toList, isspace c = true) ∧
    text = before ++ quoted pattern ++ between ++ "[" ++ blank₁ ++ String.join (bs.map Builder.text) ++
      blank₂ ++ "eraseOpBuilder" ++ blank₃ ++ "]" ++ after

/-- A record: it lists the pattern and the builders, and its brackets are nested. -/
structure IsRecord (pattern : String) (bs : List Builder) (text : String) : Prop where
  lists : Lists pattern bs text
  nested : brackets.Nested text.toList

/-- The driver returns, and what it writes after the header is a record. -/
def WritesRecord (header : String) (tac : Tactic) (bs : List Builder) (st : EmitState) : Prop :=
  ∃ st' record, Prog.run (emitTactic header ((tac.what :: tac.how).map Stmt.toTree)) st = (.ok (), st') ∧
    st'.text = st.text ++ header ++ record ∧ IsRecord tac.what.pattern bs record

/-- The record without its last bracket before the list. -/
def writtenText (pattern : String) (bs : List Builder) : String :=
  recordHead pattern ++ String.join (bs.map Builder.text) ++ "eraseOpBuilder \n" ++ "]>;"

theorem text_str (st : EmitState) (s : String) : (st.append [.str s]).text = st.text ++ s := by
  have h := st.text_append_str [s]
  rwa [String.join_cons, String.join_nil, String.append_empty] at h

/-- Builders add their texts to the stream. -/
theorem text_builders {st st' : EmitState} {bs : List Builder}
    (h : st'.os = st.os ++ bs.map .builder) :
    st'.text = st.text ++ String.join (bs.map Builder.text) := by
  have hbs : (bs.map Output.builder).map Output.text = bs.map Builder.text := by
    rw [List.map_map]
    rfl
  unfold EmitState.text
  rw [h, List.map_append, String.join_append, hbs]

/-- With a statement after `how`, the driver writes what the emitter makes of the statements. -/
theorem run_emitTactic_ok {header : String} {tac : Tactic} {st st' : EmitState} (htac : tac.Named)
    (hhow : tac.how ≠ [])
    (h : Prog.run (emitTactic header ((tac.what :: tac.how).map Stmt.toTree)) st = (.ok (), st')) :
    tac.what.Printable ∧ ∃ bs : List Builder, (∀ b ∈ bs, b.NoQuotes) ∧
      Accepted tac .split (st.append [.str header]) bs ∧
      st'.text = st.text ++ header ++ writtenText tac.what.pattern bs := by
  obtain ⟨s, ss, hcons⟩ := List.exists_cons_of_ne_nil hhow
  have hstmts : (tac.what :: tac.how).map Stmt.toTree =
      tac.what.toTree :: s.toTree :: ss.map Stmt.toTree := by
    rw [hcons]
    rfl
  rw [hstmts, emitTactic] at h
  obtain ⟨_, _, hheader, h⟩ := Prog.run_bind_ok.1 h
  rw [run_write] at hheader
  cases hheader
  obtain ⟨_, st₁, hwhat, h⟩ := Prog.run_bind_ok.1 h
  obtain ⟨_, st₂, hhows, h⟩ := Prog.run_bind_ok.1 h
  obtain ⟨_, _, herase, h⟩ := Prog.run_bind_ok.1 h
  rw [run_write] at herase h
  cases herase
  cases h
  -- no name in the statements holds a quote, so no builder's text does
  have hquotes : ∀ c ∈ (s :: ss).map Stmt.toTree, c.NoQuotes := by
    refine List.forall_mem_map.2 fun s' hs' => htac.noQuotes s' ?_
    rw [hcons]
    exact List.mem_cons_of_mem _ hs'
  have hstart : WroteBuilders st₁.os st₁ := ⟨[], (List.append_nil _).symm, by simp⟩
  obtain ⟨bs, hos, hbs⟩ := wroteBuilders_emitHows hquotes st₁ _ st₂ hstart hhows
  -- the pattern comes first, then the builders
  obtain ⟨hprintable, htext₁⟩ := run_emitWhat_ok hwhat
  refine ⟨hprintable, bs, hbs, ⟨st₁, st₂, hwhat, by rw [Tactic.built, hcons]; exact hhows, hos⟩, ?_⟩
  unfold writtenText
  rw [text_str, text_str, text_builders hos, htext₁, text_str]
  simp only [String.append_assoc]

theorem recordHead_eq (pattern : String) :
    recordHead pattern = "def Tactic : Tactics<" ++ quoted pattern ++ ", \n" := by
  unfold recordHead quoted
  rw [show "\", \n" = "\"" ++ ", \n" from rfl]
  simp only [String.append_assoc]

/-- What is due after the first line and the builders: the bracket of the record. -/
theorem moves_writtenText {pattern : String} (hpattern : NoQuote pattern) {bs : List Builder}
    (hbs : ∀ b ∈ bs, b.NoQuotes) :
    Moves (recordHead pattern ++ String.join (bs.map Builder.text) ++ "eraseOpBuilder \n") [] ['>'] := by
  rw [recordHead_eq]
  refine ((((?_ : Moves _ [] ['>']).append (moves_quoted hpattern _)).append
    (?_ : Moves _ _ ['>'])).append (moves_join hbs _)).append ?_
  all_goals exact fun _ => rfl

/-- The bracket that closes the list is not the one that is due. -/
theorem not_nested_writtenText {pattern : String} (hpattern : NoQuote pattern) {bs : List Builder}
    (hbs : ∀ b ∈ bs, b.NoQuotes) : ¬brackets.Nested (writtenText pattern bs).toList := by
  unfold writtenText
  rw [String.toList_append]
  exact Brackets.Moves.not_nested (moves_writtenText hpattern hbs) (by decide) (by decide)
    (by decide) (by decide)

/-- With the bracket that opens the list it would be a record. -/
theorem isRecord_opened {pattern : String} (hpattern : NoQuote pattern) {bs : List Builder}
    (hbs : ∀ b ∈ bs, b.NoQuotes) :
    IsRecord pattern bs (recordHead pattern ++ "[\n" ++ String.join (bs.map Builder.text) ++
      "eraseOpBuilder \n" ++ "]>;") := by
  constructor
  · have hblank : ∀ c ∈ ("\n" ++ "" ++ " \n").toList, isspace c = true :=
      List.all_iff_forall_prop.1 (by decide)
    refine ⟨"def Tactic : Tactics<", ", \n", "\n", "", " \n", ">;", hblank, ?_⟩
    rw [recordHead_eq, show "[\n" = "[" ++ "\n" from rfl, show "eraseOpBuilder \n" = "eraseOpBuilder" ++ " \n" from rfl,
      show "]>;" = "]" ++ ">;" from rfl]
    simp only [String.append_assoc, String.empty_append]
  · have hmoves : Moves (recordHead pattern ++ "[\n" ++ String.join (bs.map Builder.text) ++
        "eraseOpBuilder \n" ++ "]>;") [] [] := by
      rw [recordHead_eq]
      refine ((((((?_ : Moves _ [] ['>']).append (moves_quoted hpattern _)).append
        (?_ : Moves _ _ ['>'])).append (?_ : Moves _ _ [']', '>'])).append (moves_join hbs _)).append
        (?_ : Moves _ _ [']', '>'])).append ?_
      all_goals exact fun _ => rfl
    exact hmoves.neutral.nested

/-- Without a statement after `how` only the header is written. -/
theorem run_emitTactic_nil {header : String} {tac : Tactic} {st st' : EmitState} (hhow : tac.how = [])
    (h : Prog.run (emitTactic header ((tac.what :: tac.how).map Stmt.toTree)) st = (.ok (), st')) :
    st'.text = st.text ++ header := by
  have hstmts : (tac.what :: tac.how).map Stmt.toTree = [tac.what.toTree] := by
    rw [hhow]
    rfl
  rw [hstmts] at h
  unfold emitTactic at h
  obtain ⟨_, _, hheader, h⟩ := Prog.run_bind_ok.1 h
  rw [run_write] at hheader
  cases hheader
  cases h
  exact text_str st header

/-- What is written for a tactic is never a record. -/
theorem Tactic.Named.not_writesRecord {tac : Tactic} (htac : tac.Named) (header : String)
    (bs : List Builder) (st : EmitState) : ¬WritesRecord header tac bs st := by
  rintro ⟨st', record, hrun, htext, hrecord⟩
  by_cases hhow : tac.how = []
  · have hempty : record = "" := by
      have hnil := run_emitTactic_nil hhow hrun
      rw [htext] at hnil
      have hlist := congrArg String.toList hnil
      simp only [String.toList_append, List.append_right_eq_self] at hlist
      exact String.toList_eq_nil_iff.1 hlist
    obtain ⟨before, between, blank₁, blank₂, blank₃, after, -, hlists⟩ := hrecord.lists
    have hopen : '[' ∈ record.toList := by
      rw [hlists]
      simp
    rw [hempty] at hopen
    cases hopen
  · obtain ⟨hprintable, bs', hbs', -, hwritten⟩ := run_emitTactic_ok htac hhow hrun
    have hsame : record = writtenText tac.what.pattern bs' := by
      rw [htext] at hwritten
      have hlist := congrArg String.toList hwritten
      simp only [String.toList_append] at hlist
      exact String.toList_inj.1 (List.append_cancel_left hlist)
    have hnested := hrecord.nested
    rw [hsame] at hnested
    exact not_nested_writtenText (hprintable.no_quote htac.what) hbs' hnested

/-- The driver writes a record for no tactic that the parser returns, of either form, whatever
stands on the stream before it. -/
theorem emitTactic_no_record {L L' : Lexer} (hL : L.Reachable) {fuel : ℕ} {t : Tree}
    (h : Prog.run (Parser.parseTactic fuel) L = (.ok t, L')) :
    ∃ tac : Tactic, t = tac.toTree ∧ ∀ f header st bs,
      Accepted tac f (st.append [.str header]) bs → ¬WritesRecord header tac bs st := by
  obtain ⟨tac, rfl, htac⟩ := Parser.parseTactic_named hL.valid h
  exact ⟨tac, rfl, fun f header st bs _ => htac.not_writesRecord header bs st⟩

theorem Tactic.statements_toTree (tac : Tactic) :
    Tac.statements tac.toTree = .ok ((tac.what :: tac.how).map Stmt.toTree) := by
  simp [Tac.statements, Tactic.toTree, Tree.expect, Tree.kind, Tree.trees, Tree.tree]

/-- The steps of a run of the driver that ends well. -/
theorem driver_ok {fuel : ℕ} {header text : String} {raw : List Char}
    (h : driver fuel header raw = .ok text) :
    ∃ L t L' stmts st, Lexer.create raw = .ok L ∧ Prog.run (Parser.parseTactic fuel) L = (.ok t, L') ∧
      Tac.statements t = .ok stmts ∧ Prog.run (emitTactic header stmts) {} = (.ok (), st) ∧
      st.text = text := by
  unfold driver at h
  obtain ⟨L, hcreate, h⟩ := Except.bind_eq_ok.1 h
  obtain ⟨t, ht, h⟩ := Except.bind_eq_ok.1 h
  obtain ⟨stmts, hstmts, h⟩ := Except.bind_eq_ok.1 h
  obtain ⟨_, houtcome, h⟩ := Except.bind_eq_ok.1 h
  exact ⟨L, t, _, stmts, _, hcreate, Prod.ext ht rfl, hstmts, Prod.ext houtcome rfl, Except.ok.inj h⟩

/-- The tactic `def T { what c(a,b) = d(b,a) how c(a,b) = d(b,a) }`. -/
def transposeText : List Char := "def T \x7b what c(a,b) = d(b,a) how c(a,b) = d(b,a) \x7d".toList

theorem driver_transposeText : driver 12 "" transposeText = .ok
    ("def Tactic : Tactics<\"c(a, b) = d(b, a)\", \n" ++
      "  transposeBuilder<Inputs<[\"d\"]>, Outputs<[\"c\"]>, StrExpr<\"\x7b1,0\x7d\">>,\n" ++
      "eraseOpBuilder \n]>;") := by
  decide +kernel

theorem emitTactic_no_record_transpose : ∃ L t L' tac, Lexer.create transposeText = .ok L ∧
    Prog.run (Parser.parseTactic 12) L = (.ok t, L') ∧ t = Tactic.toTree tac ∧
    ∀ f header st bs, Accepted tac f (st.append [.str header]) bs → ¬WritesRecord header tac bs st := by
  obtain ⟨L, t, L', -, -, hcreate, hparse, -⟩ := driver_ok driver_transposeText
  obtain ⟨tac, htac, hno⟩ := emitTactic_no_record (.create hcreate) hparse
  exact ⟨L, t, L', tac, hcreate, hparse, htac, hno⟩

/-- The tactic is parsed and its statements are accepted, but no record is written. -/
theorem emitTactic_transpose : ∃ L t L' tac bs, Lexer.create transposeText = .ok L ∧
    Prog.run (Parser.parseTactic 12) L = (.ok t, L') ∧ t = Tactic.toTree tac ∧
    Accepted tac .split (EmitState.append {} [.str ""]) bs ∧ ¬WritesRecord "" tac bs {} := by
  obtain ⟨L, t, L', stmts, st, hcreate, hparse, hstmts, hrun, htext⟩ := driver_ok driver_transposeText
  obtain ⟨tac, rfl, htac⟩ := Parser.parseTactic_named (Lexer.Reachable.create hcreate).valid hparse
  rw [tac.statements_toTree] at hstmts
  cases hstmts
  have hhow : tac.how ≠ [] := by
    intro hhow
    rw [run_emitTactic_nil hhow hrun] at htext
    revert htext
    decide
  obtain ⟨-, bs, -, hacc, -⟩ := run_emitTactic_ok htac hhow hrun
  exact ⟨L, _, L', tac, bs, hcreate, hparse, rfl, hacc, htac.not_writesRecord "" bs {}⟩

end TacticsDSL
