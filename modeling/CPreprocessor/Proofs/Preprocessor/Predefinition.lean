import CPreprocessor.Preprocessor
import CPreprocessor.Proofs.Directive.BrokenLine
import CPreprocessor.Proofs.Directive.Skipping
import CPreprocessor.Proofs.Lexer.Recognition

/-!
Macros that are predefined or removed from outside. The text of such an operation becomes a line
of source, which is executed like any other. If nothing but that line has an effect, a failed
operation leaves the macros as they were, and one that succeeds changes a single name. A line end
in the text lets further directives follow, and then neither holds.
-/

namespace CPreprocessor

open Directive
open Source (Runs)

namespace Table

theorem lookup_undef_of_ne {name n : Text} (h : n ≠ name) (T : Table) :
    (T.undef name).lookup n = T.lookup n := by
  obtain ⟨entries⟩ := T
  rw [undef, lookup, lookup, List.find?_filter]
  refine congrArg (List.find? · entries) (funext fun m => ?_)
  by_cases hm : m.name = n
  · simp [hm, h]
  · simp [hm]

theorem lookup_undef_self (name : Text) (T : Table) : (T.undef name).lookup name = none := by
  simp [undef, lookup]

theorem lookup_insert_of_ne {m : Macro} {n : Text} (h : n ≠ m.name) (T : Table) :
    (T.insert m).lookup n = T.lookup n := by
  have hinsert : (T.insert m).lookup n = (T.undef m.name).lookup n :=
    List.find?_cons_of_neg (by simpa using Ne.symm h)
  rw [hinsert, lookup_undef_of_ne h]

end Table

namespace Directive

/-- The effect of a table change on active text. -/
theorem execute_of_changeTable {d : Directive} {name : Token} (hgap : name.isGap = false)
    (hend : name.isLineEnd = false) (hname : ofName? name.text = some d) {st : State}
    (hst : st.active = true) {l : Line} {change : Except Error (Table × Option Token)}
    (hd : st.run d name l = st.orKeep (st.changeTable l change)) (keep : Bool) (hash : Token) :
    execute keep hash { l with tokens := name :: l.tokens } st =
      match change with
      | .error e => (st, .error e)
      | .ok (table, stop) => ({ st with table }.record name, .ok (lineBreak stop)) := by
  simp only [execute, List.dropWhile_cons, hgap, hend, hname, hd, State.changeTable, hst,
    Bool.false_eq_true, if_false, if_true, Bool.true_or]
  cases change <;> rfl

end Directive

namespace ActiveText

section Text

variable {σ : Type} [Feed σ] {x y : ActiveText σ} {ts : List Token} {e : End}

/-- What is pending is handed out first. -/
theorem runs_of_pending (h : Runs x ts e y) (hp : x.pending = []) (us : List Token) :
    Runs { x with pending := us } (us ++ ts) e y := by
  induction us with
  | nil =>
      obtain ⟨input, state, keep, start, pending⟩ := x
      cases hp
      exact h
  | cons u us ih => exact .token (pull_of_pending rfl) ih

/-- Active text without directives is handed out and has no effect. -/
theorem runs_of_no_line (hp : x.pending = []) (hg : x.state.groups = [])
    (h : Source.content x.input = (ts, .eof))
    (hitems : ∀ i, .line i ∉ Item.ofTokens x.lineStart ts) :
    ∃ y, Runs x ts .eof y ∧ y.state = x.state := by
  induction ts generalizing x with
  | nil =>
      obtain ⟨s, hs⟩ := Source.pull_of_content_nil h
      have hpull := pull_of_eof hp hs
      rw [hg] at hpull
      exact ⟨_, .stop hpull, rfl⟩
  | cons t ts ih =>
      rw [Item.ofTokens] at hitems
      have ht : ¬(x.lineStart && t.isHash) = true := by
        intro ht
        rw [if_pos ht] at hitems
        exact hitems _ List.mem_cons_self
      rw [if_neg ht] at hitems
      obtain ⟨s, hs, hcontent⟩ := Source.pull_of_content h
      have hpull := pull_of_text hp hs ht
      rw [if_pos (by rw [State.active, hg]; rfl)] at hpull
      obtain ⟨y, hruns, hstate⟩ :=
        ih (x := { x with input := s, lineStart := startsLine x.lineStart t }) hp hg hcontent
          fun i hi => hitems i (List.mem_cons_of_mem _ hi)
      exact ⟨y, .token hpull hruns, hstate⟩

end Text
end ActiveText

namespace Preprocessor

/-- Only the first line of a text has an effect: it breaks off, or the text goes on to its end
without an error and without a directive. -/
def LoneLine (src : Text) : Prop :=
  (Line.read (Lexer.ofText src)).1.Broken ∨
    (Source.content (Line.read (Lexer.ofText src)).2).2 = .eof ∧
      ∀ i, .line i ∉ Item.ofTokens true (Source.content (Line.read (Lexer.ofText src)).2).1

/-- The source that a definition stands for. -/
def definitionSource (definition : Text) : Text :=
  ascii "#define " ++ (splitDefinition definition).1 ++ ascii " " ++
    (splitDefinition definition).2 ++ [Byte.lineFeed]

/-- The source that a removal stands for. -/
def removalSource (name : Text) : Text :=
  ascii "#undef " ++ name ++ [Byte.lineFeed]

theorem define_eq (definition : Text) (p : Preprocessor) :
    p.define definition = p.execute (definitionSource definition) :=
  rfl

theorem undef_eq (name : Text) (p : Preprocessor) :
    p.undef name = p.execute (removalSource name) :=
  rfl

theorem execute_of_runs {p : Preprocessor} {src : Text} {ts : List Token} {e : End}
    {y : ActiveText Lexer} (h : Runs (.ofSource (Lexer.ofText src) p.table false) ts e y) :
    p.execute src =
      (e.error?.map (Error.inFile predefinedFile), { p with table := y.state.table }) := by
  rw [execute, h.drain]

/-- A text begins with a hash and the name of a directive. -/
structure Begins (d : Directive) (src : Text) (hash name : Token) (l : Lexer) : Prop where
  pull : ∃ l₁, Source.pull (Lexer.ofText src) = .token hash l₁ ∧
    Source.pull l₁ = .token name l
  isHash : hash.isHash = true
  solid : name.isSpace = false
  named : ofName? name.text = some d

/-- How an operation on the table ends. -/
def settle (p : Preprocessor) :
    Except Error (Table × Option Token) → Option Error × Preprocessor
  | .error e => (some (e.inFile predefinedFile), p)
  | .ok (table, _) => (none, { p with table })

/-- A text that changes the table in its first line, if only that line has an effect. -/
theorem execute_of_changeTable {p : Preprocessor} {src : Text} {d : Directive} {hash name : Token}
    {l : Lexer} (hbegins : Begins d src hash name l) (hlone : LoneLine src)
    {change : Except Error (Table × Option Token)}
    (hrun : State.run d name (Line.read l).1 { table := p.table } =
      State.orKeep { table := p.table }
        (State.changeTable (Line.read l).1 change { table := p.table })) :
    p.execute src = p.settle change := by
  obtain ⟨⟨l₁, hhash, hname⟩, hpunct, hsolid, hd⟩ := hbegins
  have hspace : ¬hash.isSpace = true := fun hs => by
    simp [Token.isHash, Token.not_isPunct_of_isSpace hs] at hpunct
  have hend : name.isLineEnd = false := by simp [Token.isLineEnd, hsolid]
  have hread : Line.read l₁ =
      ({ (Line.read l).1 with tokens := name :: (Line.read l).1.tokens }, (Line.read l).2) := by
    rw [Line.read_of_token hname, if_neg (by simp [hend])]
  have hexec := Directive.execute_of_changeTable (by simp [Token.isGap, hsolid]) hend hd rfl hrun
    false hash
  rw [LoneLine, Line.read_of_token hhash, if_neg (by simp [Token.isLineEnd, hspace]),
    hread] at hlone
  cases change with
  | error e =>
      exact execute_of_runs (.stop (ActiveText.pull_of_failed_line rfl hhash hpunct hread hexec))
  | ok change =>
      obtain ⟨table, stop⟩ := change
      rcases hlone with hbroken | ⟨heof, hitems⟩
      · have hnone := (hbroken.of_suffix (List.suffix_cons hash _)).execute false hash
          { table := p.table }
        rw [hexec] at hnone
        cases hnone
      · have hmode : (Line.read l).2.tolerant = false := by
          rw [Line.tolerant_read, Lexer.tolerant_of_pull hname, Lexer.tolerant_of_pull hhash]
          rfl
        have hrest : Feed.tolerate false (Line.read l).2 = (Line.read l).2 :=
          congrArg (Lexer.mk _ _) hmode.symm
        have hpull := ActiveText.pull_of_line
          (x := .ofSource (Lexer.ofText src) p.table false) rfl hhash hpunct hread hexec
        obtain ⟨y, hruns, hstate⟩ := ActiveText.runs_of_no_line
          (x := { input := (Line.read l).2, state := State.record name { table } }) rfl rfl
          (Prod.ext rfl heof) hitems
        have hall := ActiveText.runs_of_pending hruns rfl (lineBreak stop)
        rw [← hrest] at hall
        rw [execute_of_runs (hall.of_pull_eq hpull), hstate]
        rfl

section Names

open Lexer (solidLexeme place)

/-- A strict lexer at a glyph that starts neither white space nor a comment. -/
theorem pull_of_solidLexeme {g : Glyph} {gs : List Glyph} {stop : Pos} {x : Lexeme}
    (hline : Byte.isLineBreak g.byte = false) (hblank : Byte.isBlank g.byte = false)
    (hslash : g.byte ≠ '/'.toUInt8) (h : solidLexeme false stop g gs = .ok x) :
    Source.pull (⟨g :: gs, stop, false⟩ : Lexer) =
      .token (place g.pos x) ⟨x.cut.rest, stop, false⟩ := by
  have hlexeme := Lexer.lexeme_of_solidLexeme hline hblank
    (Lexer.comment_absent fun hb => absurd hb hslash) h
  change Lexer.pull _ = _
  simp only [Lexer.pull, hlexeme]

theorem begins_define (t : Text) :
    ∃ hash name l, Begins .define (ascii "#define " ++ t) hash name l :=
  ⟨_, _, _,
    ⟨_, pull_of_solidLexeme (g := ⟨'#'.toUInt8, .start, []⟩) rfl rfl (by decide) rfl,
      pull_of_solidLexeme (g := ⟨'d'.toUInt8, ⟨1, 1, 2⟩, []⟩) rfl rfl (by decide) rfl⟩,
    rfl, rfl, rfl⟩

theorem begins_undef (t : Text) :
    ∃ hash name l, Begins .undef (ascii "#undef " ++ t) hash name l :=
  ⟨_, _, _,
    ⟨_, pull_of_solidLexeme (g := ⟨'#'.toUInt8, .start, []⟩) rfl rfl (by decide) rfl,
      pull_of_solidLexeme (g := ⟨'u'.toUInt8, ⟨1, 1, 2⟩, []⟩) rfl rfl (by decide) rfl⟩,
    rfl, rfl, rfl⟩

end Names

theorem exists_insert_of_define {T T' : Table} {l : Line} {stop : Option Token}
    (h : Definition.define T l = .ok (T', stop)) : ∃ m, T' = T.insert m := by
  obtain ⟨⟨m, stop'⟩, -, h⟩ := except_bind_eq_ok h
  obtain ⟨table, hdefine, h⟩ := except_bind_eq_ok h
  cases h
  simp only [Table.define] at hdefine
  split at hdefine
  · cases hdefine
  · cases hdefine
    exact ⟨_, rfl⟩

theorem exists_undef_of_undef {T T' : Table} {l : Line} {stop : Option Token}
    (h : Definition.undef T l = .ok (T', stop)) : ∃ name, T' = T.undef name := by
  obtain ⟨⟨name, l'⟩, -, h⟩ := except_bind_eq_ok h
  obtain ⟨stop', -, h⟩ := except_bind_eq_ok h
  cases h
  exact ⟨_, rfl⟩

/-- A definition, if nothing but its line has an effect, leaves the macros as they were or puts
one macro in the place of an earlier one of its name. A removal leaves them as they were or
removes one name. -/
theorem define_undef_atomic (p : Preprocessor) (t : Text) :
    (LoneLine (definitionSource t) →
      ((p.define t).1 ≠ none → (p.define t).2 = p) ∧
      ((p.define t).1 = none → ∃ m, (p.define t).2 = { p with table := p.table.insert m } ∧
        ∀ n, n ≠ m.name → (p.define t).2.table.lookup n = p.table.lookup n)) ∧
    (LoneLine (removalSource t) →
      ((p.undef t).1 ≠ none → (p.undef t).2 = p) ∧
      ((p.undef t).1 = none → ∃ name, (p.undef t).2 = { p with table := p.table.undef name } ∧
        (p.undef t).2.table.lookup name = none ∧
        ∀ n, n ≠ name → (p.undef t).2.table.lookup n = p.table.lookup n)) := by
  constructor
  · intro hlone
    obtain ⟨hash, name, l, hbegins⟩ := begins_define ((splitDefinition t).1 ++ ascii " " ++
      (splitDefinition t).2 ++ [Byte.lineFeed])
    have hsource : definitionSource t = ascii "#define " ++ ((splitDefinition t).1 ++ ascii " " ++
        (splitDefinition t).2 ++ [Byte.lineFeed]) := by
      simp only [definitionSource, List.append_assoc]
    rw [hsource] at hlone
    rw [define_eq, hsource, execute_of_changeTable hbegins hlone rfl]
    cases hchange : Definition.define p.table (Line.read l).1 with
    | error e => exact ⟨fun _ => rfl, fun h => by cases h⟩
    | ok change =>
        obtain ⟨table, stop⟩ := change
        obtain ⟨m, rfl⟩ := exists_insert_of_define hchange
        exact ⟨fun h => absurd rfl h,
          fun _ => ⟨m, rfl, fun n hn => Table.lookup_insert_of_ne hn p.table⟩⟩
  · intro hlone
    obtain ⟨hash, name, l, hbegins⟩ := begins_undef (t ++ [Byte.lineFeed])
    rw [removalSource, List.append_assoc] at hlone
    rw [undef_eq, removalSource, List.append_assoc, execute_of_changeTable hbegins hlone rfl]
    cases hchange : Definition.undef p.table (Line.read l).1 with
    | error e => exact ⟨fun _ => rfl, fun h => by cases h⟩
    | ok change =>
        obtain ⟨table, stop⟩ := change
        obtain ⟨removed, rfl⟩ := exists_undef_of_undef hchange
        exact ⟨fun h => absurd rfl h, fun _ =>
          ⟨removed, rfl, Table.lookup_undef_self removed p.table,
            fun n hn => Table.lookup_undef_of_ne hn p.table⟩⟩

section NoBreak

/-- What follows a line break is empty. -/
def BreakLast {α : Type} (byte : α → UInt8) (xs : List α) : Prop :=
  ∀ x ys, x :: ys <:+ xs → Byte.isLineBreak (byte x) = true → ys = []

theorem BreakLast.of_suffix {α : Type} {byte : α → UInt8} {xs ys : List α}
    (h : BreakLast byte xs) (hs : ys <:+ xs) : BreakLast byte ys :=
  fun x zs hz => h x zs (hz.trans hs)

theorem breakLast_spliced (p : Pos) {t : Text} (h : BreakLast id t) :
    BreakLast Glyph.byte (Glyph.spliced p t).2 := by
  fun_induction Glyph.spliced p t with
  | case1 =>
      intro g gs hs
      cases List.suffix_nil.1 hs
  | case2 p t lead gs hsp ih =>
      rw [hsp] at ih
      exact ih (h.of_suffix ⟨[Byte.backslash, Byte.carriageReturn, Byte.lineFeed], rfl⟩)
  | case3 p t lead gs hsp ih | case4 p t _ lead gs hsp ih =>
      rw [hsp] at ih
      exact ih (h.of_suffix ⟨[_, _], rfl⟩)
  | case5 p b t _ _ _ lead gs hsp ih =>
      rw [hsp] at ih
      intro g gs' hs hb
      rcases List.suffix_cons_iff.1 hs with heq | hs
      · cases heq
        cases h b t (List.suffix_refl _) hb
        cases hsp
        rfl
      · exact ih (h.of_suffix (List.suffix_cons b t)) g gs' hs hb

theorem break_mem_of_space {gs : List Glyph} {s : Lexer.Space} (h : Lexer.space gs = some s)
    (hn : s.newline = true) : ∃ g ∈ s.cut.taken, Byte.isLineBreak g.byte = true := by
  fun_induction Lexer.space gs generalizing s with
  | case1 | case4 =>
      cases h
      cases hn
  | case2 g t hg ih =>
      obtain ⟨d, hd, rfl⟩ := Option.map_eq_some_iff.1 h
      exact ⟨g, List.mem_cons_self, hg⟩
  | case3 g t _ hg ih =>
      obtain ⟨d, hd, rfl⟩ := Option.map_eq_some_iff.1 h
      obtain ⟨g', hg', hb⟩ := ih hd hn
      exact ⟨g', List.mem_append_right _ hg', hb⟩
  | case5 => cases h
  | case6 g t _ _ c hc ih =>
      obtain ⟨d, hd, rfl⟩ := Option.map_eq_some_iff.1 h
      obtain ⟨g', hg', hb⟩ := ih hd hn
      exact ⟨g', List.mem_append_right _ hg', hb⟩

theorem break_of_pull {l l' : Lexer} {t : Token} (h : Source.pull l = .token t l') :
    ∃ taken, l.rest = taken ++ l'.rest ∧
      (t.isLineEnd = true → ∃ g ∈ taken, Byte.isLineBreak g.byte = true) := by
  change l.pull = _ at h
  unfold Lexer.pull at h
  split at h
  · cases h
  · rename_i g gs hr
    split at h
    · rename_i x hx
      cases h
      refine ⟨x.cut.taken, hr.trans (Lexer.cuts_lexeme hx).whole.symm, fun hend => ?_⟩
      unfold Lexer.lexeme at hx
      split at hx
      · cases hx
      · rename_i s hs
        split at hx
        · have hkind := Lexer.kind_ne_whitespace_of_solidLexeme hx
          exact absurd (beq_iff_eq.1 (Bool.and_eq_true_iff.1 hend).1) hkind
        · cases hx
          exact break_mem_of_space hs (Bool.and_eq_true_iff.1 hend).2
    · cases h

/-- If a line break comes last, the line takes all there is. -/
theorem read_of_breakLast {l : Lexer} (h : BreakLast Glyph.byte l.rest) :
    (Line.read l).1.Broken ∨ (Line.read l).2.rest = [] := by
  fun_induction Line.read l with
  | case1 l e l' hp =>
      cases e with
      | fault e => exact .inl ⟨⟨e, rfl⟩, fun t ht => by cases ht⟩
      | eof =>
          cases Lexer.eq_of_stop hp
          exact .inr (Lexer.rest_of_content (Source.content_of_stop hp))
  | case2 l t l' hp ht =>
      obtain ⟨taken, hr, hbreak⟩ := break_of_pull hp
      obtain ⟨g, hg, hb⟩ := hbreak ht
      obtain ⟨us, vs, rfl⟩ := List.append_of_mem hg
      have hnil := h g (vs ++ l'.rest) ⟨us, by rw [hr, List.append_assoc]; rfl⟩ hb
      exact .inr (List.append_eq_nil_iff.1 hnil).2
  | case3 l t l' hp ht line l'' hr ih =>
      obtain ⟨taken, hrest, -⟩ := break_of_pull hp
      rw [hr] at ih
      refine (ih (h.of_suffix ⟨taken, hrest.symm⟩)).imp ?_ id
      exact fun hb => hb.cons (Bool.eq_false_iff.2 ht)

/-- A text of one line. -/
theorem loneLine_of_noBreak {t : Text} (h : ∀ b ∈ t, Byte.isLineBreak b = false) :
    LoneLine (t ++ [Byte.lineFeed]) := by
  have hlast : BreakLast id (t ++ [Byte.lineFeed]) := by
    rintro b ys ⟨us, hus⟩ hb
    rcases List.eq_nil_or_concat ys with rfl | ⟨zs, c, rfl⟩
    · rfl
    · obtain ⟨rfl, -⟩ : us ++ b :: zs = t ∧ c = Byte.lineFeed := by
        have heq : (us ++ b :: zs) ++ [c] = t ++ [Byte.lineFeed] := by simpa using hus
        exact List.append_singleton_inj.1 heq
      exact absurd hb (by simp [h b (by simp)])
  rcases read_of_breakLast (l := Lexer.ofText (t ++ [Byte.lineFeed]))
    (breakLast_spliced .start hlast) with hbroken | hnil
  · exact .inl hbroken
  · have hcontent :
        Source.content (Line.read (Lexer.ofText (t ++ [Byte.lineFeed]))).2 = ([], .eof) := by
      generalize (Line.read (Lexer.ofText (t ++ [Byte.lineFeed]))).2 = l at hnil
      obtain ⟨rest, stop, tolerant⟩ := l
      cases hnil
      exact Lexer.content_nil
    refine .inr ⟨by rw [hcontent], fun i => ?_⟩
    rw [hcontent, Item.ofTokens]
    exact List.not_mem_nil

end NoBreak

/-- Within a bound on its tokens the effect of a text can be computed. -/
theorem execute_of_runWithin {n : Nat} {p : Preprocessor} {src : Text} {e : End} {T : Table}
    (h : (Source.runWithin (some ∘ Source.pull) n
      (ActiveText.ofSource (Lexer.ofText src) p.table false)).map
        (fun (_, e, y) => (e, y.state.table)) = some (e, T)) :
    p.execute src = (e.error?.map (Error.inFile predefinedFile), { p with table := T }) := by
  obtain ⟨⟨ts, f, y⟩, hr, heq⟩ := Option.map_eq_some_iff.1 h
  cases heq
  exact execute_of_runs (Source.runs_of_runWithin (fun hp => Option.some.inj hp) hr)

namespace Sample

/-- A number of one digit. -/
def digit (text : Text) (pos : Pos) : Token :=
  { kind := .number, text, pos, length := 1 }

/-- The macro of a first line. -/
def firstMacro : Macro :=
  { name := ascii "A", body := [digit (ascii "1") ⟨10, 1, 11⟩], pos := ⟨8, 1, 9⟩ }

/-- The macro of a second line. -/
def secondMacro : Macro :=
  { name := ascii "B", body := [digit (ascii "2") ⟨22, 2, 11⟩], pos := ⟨20, 2, 9⟩ }

/-- The error of a definition whose name is a number. -/
def noName : Error :=
  { fault := .expectedIdentifier (some (digit (ascii "1") ⟨9, 1, 10⟩)), pos := ⟨9, 1, 10⟩ }

def lineFeed : Token :=
  { kind := .whitespace, text := ascii "\n", pos := ⟨19, 2, 8⟩, length := 1, newline := true }

/-- The error of a definition that ends before its name. -/
def brokenName : Error :=
  { fault := .expectedIdentifier (some lineFeed), pos := lineFeed.pos }

end Sample

/-- Operations of one line: a definition, a removal, and a definition that fails. -/
theorem define_undef_atomic_oneLine :
    (∃ m, (({} : Preprocessor).define (ascii "A=1")).2 = { table := Table.insert m {} }) ∧
      (∃ name, (({ table := ⟨[Sample.firstMacro]⟩ } : Preprocessor).undef (ascii "A")).2 =
        { table := Table.undef name ⟨[Sample.firstMacro]⟩ }) ∧
      (({} : Preprocessor).define (ascii "=1")).2 = {} := by
  have hdefine : LoneLine (definitionSource (ascii "A=1")) :=
    loneLine_of_noBreak (t := ascii "#define A 1") (by decide +kernel)
  have hfail : LoneLine (definitionSource (ascii "=1")) :=
    loneLine_of_noBreak (t := ascii "#define  1") (by decide +kernel)
  have hundef : LoneLine (removalSource (ascii "A")) :=
    loneLine_of_noBreak (t := ascii "#undef A") (by decide +kernel)
  have hone : ({} : Preprocessor).execute (definitionSource (ascii "A=1")) =
      (none, { table := ⟨[Sample.firstMacro]⟩ }) :=
    execute_of_runWithin (n := 3) (e := .eof) (by decide +kernel)
  have hnone : ({ table := ⟨[Sample.firstMacro]⟩ } : Preprocessor).execute
      (removalSource (ascii "A")) = (none, {}) :=
    execute_of_runWithin (n := 3) (e := .eof) (by decide +kernel)
  have herror : ({} : Preprocessor).execute (definitionSource (ascii "=1")) =
      (some (Error.inFile predefinedFile Sample.noName), {}) :=
    execute_of_runWithin (n := 3) (e := .fault Sample.noName) (by decide +kernel)
  refine ⟨?_, ?_, ?_⟩
  · obtain ⟨m, hm, -⟩ :=
      ((define_undef_atomic {} (ascii "A=1")).1 hdefine).2 (congrArg Prod.fst hone)
    exact ⟨m, hm⟩
  · obtain ⟨name, hname, -⟩ :=
      ((define_undef_atomic _ (ascii "A")).2 hundef).2 (congrArg Prod.fst hnone)
    exact ⟨name, hname⟩
  · refine ((define_undef_atomic {} (ascii "=1")).1 hfail).1 ?_
    rw [define_eq, herror]
    exact Option.some_ne_none _

/-- A line end lets a second directive follow: it fails after the first one took effect, or it
defines a second macro. -/
theorem not_atomic_define_twoLines :
    (∃ e, ({} : Preprocessor).define (ascii "A=1\n#define") =
        (some e, { table := ⟨[Sample.firstMacro]⟩ })) ∧
      ({} : Preprocessor).define (ascii "A=1\n#define B 2") =
        (none, { table := ⟨[Sample.secondMacro, Sample.firstMacro]⟩ }) := by
  have hfailed : ({} : Preprocessor).execute (definitionSource (ascii "A=1\n#define")) =
      (some (Error.inFile predefinedFile Sample.brokenName),
        { table := ⟨[Sample.firstMacro]⟩ }) :=
    execute_of_runWithin (n := 4) (e := .fault Sample.brokenName) (by decide +kernel)
  exact ⟨⟨_, hfailed⟩, execute_of_runWithin (n := 4) (e := .eof) (by decide +kernel)⟩

end Preprocessor
end CPreprocessor
