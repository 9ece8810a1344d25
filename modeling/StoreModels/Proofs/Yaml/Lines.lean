import StoreModels.Proofs.Pairing
import StoreModels.Proofs.Yaml.Words

/-!
Lines of a configuration text and their tokens: a key alone, a key with a word as its value, and a word as an item after
a dash. Each line is scanned from the place where its first token stands, and leaves the scanner before the next line;
what collections begin and end there is told by the columns alone.
-/
namespace StoreModels.Yaml.Scanner

variable {s : Scanner} {p : Place} {tokens : List Token} {indent outer : Int} {indents : List Int} {allowed : Bool}
  {k n : Nat} {c : Char} {word rest : List Char}

/-- A scanner outside of brackets that remembers no possible key. -/
def block (p : Place) (tokens : List Token) (indent : Int) (indents : List Int) (keyAllowed : Bool) : Scanner :=
  ⟨p, tokens.toArray, indent, indents, keyAllowed, none, []⟩

/-- The scanner goes on to a token that is the first one of its line. -/
def Turned (s : Scanner) (tokens : List Token) (indent : Int) (indents : List Int) (column : Nat) (rest : List Char) :
    Prop :=
  ∃ p, s.toNext.dropStale? = some (block p tokens indent indents true) ∧ p.column = column ∧ p.rest = rest

/-- The scanner stands before a token, and the collections that end before it have been ended. -/
def Arrived (s : Scanner) (tokens : List Token) (indent : Int) (indents : List Int) (allowed : Bool) (column : Nat)
    (rest : List Char) : Prop :=
  ∃ p s', s.toNext.dropStale? = some s' ∧ s'.unrollTo s'.place.column = block p tokens indent indents allowed ∧
    p.column = column ∧ p.rest = rest

/-- The scanner goes on to a token that is the first one of its line, once the collections right of it have ended. -/
def Pending (s : Scanner) (tokens : List Token) (indent : Int) (indents : List Int) (column : Nat) (rest : List Char) :
    Prop :=
  ∃ p s', s.toNext.dropStale? = some s' ∧
    s'.unrollTo s'.place.column = (block p tokens indent indents true).unrollTo column ∧ p.column = column ∧ p.rest = rest

/-! ## Columns -/

theorem unrollTo_stays {column : Int} (le : indent ≤ column) :
    (block p tokens indent indents allowed).unrollTo column = block p tokens indent indents allowed := by
  cases indents with
  | nil => rfl
  | cons outer more =>
    have not : ¬ column < indent := by omega
    simp [unrollTo, block, unroll, not]

theorem unrollTo_ends {column : Int} (ends : column < indent) :
    (block p tokens indent (outer :: indents) allowed).unrollTo column =
      (block p (tokens ++ [.blockEnd]) outer indents allowed).unrollTo column := by
  simp [unrollTo, block, unroll, ends, inFlow]

/-- A token in the column of the collection around it, or right of it. -/
theorem Turned.stays (turned : s.Turned tokens indent indents k rest) (le : indent ≤ k) :
    s.Arrived tokens indent indents true k rest := by
  obtain ⟨p, next, rfl, is⟩ := turned
  exact ⟨p, _, next, unrollTo_stays le, rfl, is⟩

theorem Turned.pending (turned : s.Turned tokens indent indents k rest) : s.Pending tokens indent indents k rest := by
  obtain ⟨p, next, rfl, is⟩ := turned
  exact ⟨p, _, next, rfl, rfl, is⟩

@[inherit_doc Turned.stays]
theorem Pending.stays (pending : s.Pending tokens indent indents k rest) (le : indent ≤ k) :
    s.Arrived tokens indent indents true k rest := by
  obtain ⟨p, s', next, unrolled, rfl, is⟩ := pending
  exact ⟨p, s', next, by rw [unrolled, unrollTo_stays le], rfl, is⟩

/-- A token left of one collection. -/
theorem Pending.ends (pending : s.Pending tokens indent (outer :: indents) k rest) (lt : (k : Int) < indent) :
    s.Pending (tokens ++ [.blockEnd]) outer indents k rest := by
  obtain ⟨p, s', next, unrolled, rfl, is⟩ := pending
  exact ⟨p, s', next, by rw [unrolled, unrollTo_ends lt], rfl, is⟩

/-! ## Steps -/

/-- Where a token stands, there is nothing to skip. -/
theorem skipSpace_here (solid : IsSolid p.rest) (flow : Bool) : skipSpace flow (n + 1) allowed p = (p, allowed) := by
  rw [skipSpace]
  cases starts : p.rest with
  | nil => simp [Place.atChar, Place.skipWhile, starts]
  | cons c rest =>
    rw [starts] at solid
    obtain ⟨blank, break_, hash, mark⟩ := solid.head
    simp only [isBlank, Bool.or_eq_false_iff] at blank
    simp [Place.atChar, Place.skipWhile, starts, blank, break_, hash, mark]

theorem toNext_here (solid : IsSolid s.place.rest) : s.toNext = s := by
  simp [toNext, skipSpace_here solid]

/-- One step of the scanner where a token stands. -/
theorem Arrived.step (arrived : s.Arrived tokens indent indents allowed k (c :: rest)) (n : Nat) :
    ∃ p, p.column = k ∧ p.rest = c :: rest ∧
      run? (n + 1) s = ((block p tokens indent indents allowed).token? c).bind (run? n) := by
  obtain ⟨p, s', next, unrolled, column, starts⟩ := arrived
  refine ⟨p, column, starts, ?_⟩
  rw [run?, next]
  simp only [Option.bind_eq_bind, Option.bind_some, unrolled]
  rw [show (block p tokens indent indents allowed).place.rest = c :: rest from starts]

/-- The end of the text. -/
theorem Arrived.finish (arrived : s.Arrived tokens indent [-1] true k []) (open_ : -1 < indent) :
    run? (n + 1) s = some (tokens ++ [.blockEnd]) := by
  obtain ⟨p, s', next, unrolled, _, starts⟩ := arrived
  rw [run?, next]
  simp only [Option.bind_eq_bind, Option.bind_some, unrolled]
  rw [show (block p tokens indent [-1] true).place.rest = [] from starts]
  simp only
  rw [unrollTo_ends open_, unrollTo_stays (Int.le_refl _)]
  rfl

/-! ## The tokens of a line -/

/-- A word begins a plain scalar. -/
theorem token?_word (isWord : IsWord word) (starts : s.place.rest = word ++ rest) (c : Char) (head : word.head? = some c) :
    s.token? c = s.plain? := by
  obtain ⟨d, more, rfl⟩ := List.exists_cons_of_ne_nil isWord.1
  obtain rfl : d = c := Option.some.inj head
  have part : Literal.isNamePart d = true := isWord.2 d (by simp)
  have boundary := isWord.not_boundary starts
  simp only [Place.atBoundary, Bool.or_eq_false_iff] at boundary
  have plain : startsPlain s.inFlow s.place.rest = true := by
    have mark : d ∉ marks := namePart_not_mem part (by decide)
    rw [starts, List.cons_append, startsPlain]
    simp [mark, namePart_startsBlank part]
  have not : ∀ {mark : Char}, Literal.isNamePart mark = false → d ≠ mark := namePart_ne part
  simp [token?, boundary, plain, not (by decide : Literal.isNamePart '%' = false),
    not (by decide : Literal.isNamePart '[' = false), not (by decide : Literal.isNamePart ']' = false),
    not (by decide : Literal.isNamePart '\x7b' = false), not (by decide : Literal.isNamePart '\x7d' = false),
    not (by decide : Literal.isNamePart ',' = false), not (by decide : Literal.isNamePart '-' = false),
    not (by decide : Literal.isNamePart '?' = false), not (by decide : Literal.isNamePart ':' = false),
    not (by decide : Literal.isNamePart '*' = false), not (by decide : Literal.isNamePart '&' = false),
    not (by decide : Literal.isNamePart '!' = false), not (by decide : Literal.isNamePart '|' = false),
    not (by decide : Literal.isNamePart '>' = false), not (by decide : Literal.isNamePart '\'' = false),
    not (by decide : Literal.isNamePart '"' = false)]

/-- The scanner with a possible key that began at a place. -/
def noting (s : Scanner) (key : PossibleKey) : Scanner := { s with key := some key }

/-- A key that was noted on this line, not too far away, still counts; one on a line before does not. -/
theorem dropStale?_noting {key : PossibleKey} (flow : s.outerKeys = []) (free : s.key = none) :
    (key.place.line = s.place.line → s.place.index ≤ key.place.index + keyReach →
      (s.noting key).dropStale? = some (s.noting key)) ∧
    (key.place.line < s.place.line → key.required = false → (s.noting key).dropStale? = some s) := by
  obtain ⟨place, tokens, indent, indents, allowed, _, _⟩ := s
  obtain rfl : _ = none := free
  obtain rfl : _ = [] := flow
  constructor
  · intro line near
    have still : ¬ (key.place.line < place.line ∨ key.place.index + keyReach < place.index) := by
      simp only at line near
      omega
    simp [dropStale?, noting, stillPossible?, still]
  · intro line free
    have gone : key.place.line < place.line ∨ key.place.index + keyReach < place.index := .inl line
    simp [dropStale?, noting, stillPossible?, gone, free]

/-- A possible key has been scanned, and its colon comes next. -/
structure AtColon (s : Scanner) (tokens : List Token) (indent : Int) (indents : List Int) (column : Nat)
    (word rest : List Char) (p : Place) (key : PossibleKey) : Prop where
  is : s = (block p (tokens ++ [.scalar .plain word]) indent indents false).noting key
  starts : p.rest = ':' :: rest
  right : column < p.column
  token : key.token = tokens.length
  column : key.place.column = column
  line : key.place.line = p.line
  near : p.index ≤ key.place.index + keyReach

/-- A word before a colon is noted as a possible key. -/
theorem Arrived.noted (arrived : s.Arrived tokens indent indents true k (word ++ ':' :: rest)) (isWord : IsWord word)
    (short : word.length ≤ keyReach) (blank : startsBlank rest = true) (n : Nat) :
    ∃ s' p key, run? (n + 1) s = run? n s' ∧ s'.AtColon tokens indent indents k word rest p key := by
  obtain ⟨c, more, rfl⟩ := List.exists_cons_of_ne_nil isWord.1
  obtain ⟨p, rfl, starts, step⟩ := arrived.step n
  have starts : p.rest = (c :: more) ++ ':' :: rest := starts
  have scanned : (block p tokens indent indents true).token? c = some
      ((block (p.skip (c :: more).length) (tokens ++ [.scalar .plain (c :: more)]) indent indents false).noting
        ⟨tokens.length, p, indent == p.column⟩) := by
    rw [token?_word isWord starts c rfl]
    simp [plain?, noteKey?, dropKey?, block, plain_key isWord starts blank, emit, noting, inFlow]
  refine ⟨_, p.skip (c :: more).length, ⟨tokens.length, p, indent == p.column⟩, ?_, rfl, skip_rest starts, ?_, rfl, rfl,
    rfl, by simpa [Place.skip] using short⟩
  · rw [step, scanned, Option.bind_some]
  · simp [Place.skip]

/-- A colon makes what was noted before it a key. A collection begins at the key where none is in its column. -/
theorem AtColon.step {key : PossibleKey} (colon : s.AtColon tokens indent indents k word rest p key) (le : indent ≤ k)
    (blank : startsBlank rest = true) (n : Nat) :
    run? (n + 1) s = run? n (block (p.skip 1)
      (tokens ++ (if indent < k then [.mappingStart] else []) ++ [.key, .scalar .plain word, .value]) k
      (if indent < k then indent :: indents else indents) false) := by
  obtain ⟨rfl, starts, right, token, rfl, line, near⟩ := colon
  obtain ⟨s, sIs⟩ : ∃ s, s = block p (tokens ++ [.scalar .plain word]) indent indents false := ⟨_, rfl⟩
  have place : (s.noting key).place = p := by rw [sIs]; rfl
  have solid : IsSolid (s.noting key).place.rest := by
    rw [place, starts]
    exact .cons rfl rfl (by decide) (by decide)
  have still : (s.noting key).dropStale? = some (s.noting key) :=
    (dropStale?_noting (by rw [sIs]; rfl) (by rw [sIs]; rfl)).1 (by rw [sIs]; exact line) (by rw [sIs]; exact near)
  have unrolled : (s.noting key).unrollTo p.column = s.noting key := by
    have stays : ¬ (p.column : Int) < indent := by omega
    cases indents <;> simp [unrollTo, sIs, block, noting, unroll, stays]
  have inserted := insertIdx_append tokens [.scalar .plain word] Token.key
  have begun := insertIdx_append tokens [Token.key, .scalar .plain word] Token.mappingStart
  have scanned : (s.noting key).token? ':' = some (block (p.skip 1)
      (tokens ++ (if indent < key.place.column then [.mappingStart] else []) ++ [.key, .scalar .plain word, .value])
      key.place.column (if indent < key.place.column then indent :: indents else indents) false) := by
    have marker : ∀ mark, p.atMarker mark = false := fun mark => by
      have later : p.column ≠ 0 := by omega
      simp [Place.atMarker, later]
    have alone : startsBlank (p.rest.drop 1) = true := by simpa [starts] using blank
    rw [token?, place]
    simp only [marker, alone]
    by_cases begins : indent < key.place.column
    · simp [value?, noting, sIs, block, token, inserted, begun, roll, inFlow, begins, emit]
    · have same : indent = key.place.column := by omega
      simp [value?, noting, sIs, block, token, inserted, roll, inFlow, same, emit]
  rw [← sIs, run?, toNext_here solid, still]
  simp only [Option.bind_eq_bind, Option.bind_some]
  rw [place, unrolled, place, starts]
  simp only [scanned, Option.bind_some]

/-- A key and its colon are scanned. -/
theorem Arrived.key (arrived : s.Arrived tokens indent indents true k (word ++ ':' :: rest)) (isWord : IsWord word)
    (short : word.length ≤ keyReach) (le : indent ≤ k) (blank : startsBlank rest = true) (n : Nat) :
    ∃ p, p.rest = rest ∧ k < p.column ∧ run? (n + 2) s = run? n (block p
      (tokens ++ (if indent < k then [.mappingStart] else []) ++ [.key, .scalar .plain word, .value]) k
      (if indent < k then indent :: indents else indents) false) := by
  obtain ⟨s', p, key, scanned, colon⟩ := arrived.noted isWord short blank (n + 1)
  exact ⟨p.skip 1, by simp [Place.skip, colon.starts], Nat.lt_succ_of_lt colon.right,
    scanned.trans (colon.step le blank n)⟩

/-! ## Ends of lines -/

/-- The spaces at the start of a line are skipped. -/
theorem skipSpace_indent (starts : p.rest = List.replicate k ' ' ++ rest) (solid : IsSolid rest) (flow : Bool) :
    skipSpace flow (n + 1) allowed p = (p.skip k, allowed) := by
  have spaces : (p.rest.takeWhile fun c => c == ' ' || ((flow || !allowed) && c == '\t')).length = k := by
    rw [starts, List.takeWhile_append_of_pos (by simp)]
    cases rest with
    | nil => simp
    | cons c more =>
      obtain ⟨blank, _⟩ := solid.head
      simp only [isBlank, Bool.or_eq_false_iff] at blank
      simp [blank]
  have after : (p.skip k).rest = rest := by simp [Place.skip, starts]
  have mark : p.atChar '\uFEFF' = false := by
    cases k with
    | zero =>
      cases rest with
      | nil => simp [Place.atChar, starts]
      | cons c more => simpa [Place.atChar, starts] using solid.head.2.2.2
    | succ k => simp [Place.atChar, starts, List.replicate_succ]
  rw [skipSpace]
  simp only [mark, Bool.false_eq_true, and_false, if_false]
  rw [show p.skipWhile _ = p.skip k by rw [Place.skipWhile, spaces]]
  cases rest with
  | nil => simp [Place.atChar, after]
  | cons c more => simp [Place.atChar, after, solid.head.2.1, solid.head.2.2.1]

/-- What is skipped does not depend on the possible key. -/
theorem toNext_noting (s : Scanner) (key : PossibleKey) : (s.noting key).toNext = s.toNext.noting key := rfl

theorem dropStale?_block : (block p tokens indent indents allowed).dropStale? = some (block p tokens indent indents allowed) := by
  simp [dropStale?, block, stillPossible?]

/-- The token of the next line stands here already. -/
theorem turned_here (solid : IsSolid p.rest) :
    (block p tokens indent indents true).Turned tokens indent indents p.column p.rest := by
  refine ⟨p, ?_, rfl, rfl⟩
  rw [toNext_here solid, dropStale?_block]

/-- A text that starts with a token. -/
theorem arrived_start (solid : IsSolid rest) : (Scanner.start rest).Arrived [] (-1) [] true 0 rest :=
  (turned_here solid : (block (Place.start rest) [] (-1) [] true).Turned [] (-1) [] 0 rest).stays (by omega)

/-- At the end of a line the scanner skips to the next one. -/
theorem toNext_line (starts : p.rest = '\n' :: (List.replicate k ' ' ++ rest)) (solid : IsSolid rest) :
    (block p tokens indent indents false).toNext = block (p.nextLine k) tokens indent indents true := by
  have broken : p.skipBreak.rest = List.replicate k ' ' ++ rest := by simp [Place.skipBreak, starts, isBreak]
  have mark : ¬ '\n' = '\uFEFF' := by decide
  have here : p.skipWhile (fun c => c == ' ' || ((false || !false) && c == '\t')) = p := by simp [Place.skipWhile, starts]
  have skipped : skipSpace false (p.rest.length + 1) false p = (p.nextLine k, true) := by
    rw [skipSpace]
    simp only [Place.atChar, starts, List.head?_cons, Option.some.injEq, mark, decide_false, Bool.false_eq_true, and_false,
      if_false, here, show ¬ '\n' = '#' by decide, show isBreak '\n' = true from rfl, if_true]
    rw [List.length_cons, skipSpace_indent broken solid, skipBreak_skip starts]
    rfl
  simp [toNext, block, inFlow, skipped]

theorem turned_line (starts : p.rest = '\n' :: (List.replicate k ' ' ++ rest)) (solid : IsSolid rest) :
    (block p tokens indent indents false).Turned tokens indent indents k rest := by
  refine ⟨p.nextLine k, ?_, rfl, by simp [Place.nextLine, starts]⟩
  rw [toNext_line starts solid, dropStale?_block]

/-! ## Values and items -/

/-- Behind a mark that stands right of the collection around, the scanner goes on after one blank. -/
theorem arrived_blank (starts : p.rest = ' ' :: rest) (solid : IsSolid rest) (right : indent ≤ p.column) :
    (block p tokens indent indents allowed).Arrived tokens indent indents allowed (p.column + 1) rest := by
  have starts' : p.rest = List.replicate 1 ' ' ++ rest := starts
  refine ⟨p.skip 1, _, ?_, unrollTo_stays ?_, rfl, by simp [Place.skip, starts]⟩
  · have next : (block p tokens indent indents allowed).toNext = block (p.skip 1) tokens indent indents allowed := by
      simp [toNext, block, skipSpace_indent starts' solid]
    rw [next, dropStale?_block]
  · show indent ≤ ((p.column + 1 : Nat) : Int)
    omega

/-- A word as the value of a key on the same line. -/
theorem value_turns (starts : p.rest = ' ' :: (word ++ '\n' :: (List.replicate k ' ' ++ rest))) (isWord : IsWord word)
    (solid : IsSolid rest) (left : (k : Int) ≤ indent) (right : indent ≤ p.column) (n : Nat) :
    ∃ s', run? (n + 1) (block p tokens indent indents false) = run? n s' ∧
      s'.Turned (tokens ++ [.scalar .plain word]) indent indents k rest := by
  have arrived := @arrived_blank _ tokens _ indents false _ starts (isWord.solid _) right
  obtain ⟨c, more, rfl⟩ := List.exists_cons_of_ne_nil isWord.1
  obtain ⟨q, _, starts, step⟩ := arrived.step n
  have starts : q.rest = (c :: more) ++ '\n' :: (List.replicate k ' ' ++ rest) := starts
  have scanned : (block q tokens indent indents false).token? c = some (block
      ((q.skip (c :: more).length).nextLine k) (tokens ++ [.scalar .plain (c :: more)]) indent indents true) := by
    rw [token?_word isWord starts c rfl]
    simp [plain?, noteKey?, block, plain_value isWord starts solid (by omega : (k : Int) < indent + 1), emit, inFlow]
  have after : ((q.skip (c :: more).length).nextLine k).rest = rest := nextLine_rest (skip_rest starts)
  refine ⟨_, ?_, after ▸ turned_here (after.symm ▸ solid)⟩
  rw [step, scanned, Option.bind_some]

/-- A dash before an item in the column of the key above. -/
theorem Arrived.dash (arrived : s.Arrived tokens k indents true k ('-' :: ' ' :: rest)) (n : Nat) :
    ∃ p, p.rest = ' ' :: rest ∧ p.column = k + 1 ∧
      run? (n + 1) s = run? n (block p (tokens ++ [.dash]) k indents true) := by
  obtain ⟨p, rfl, starts, step⟩ := arrived.step n
  have marker : p.atMarker "---" = false ∧ p.atMarker "..." = false := by simp [Place.atMarker, starts]
  have alone : startsBlank p.rest.tail = true := by simp [starts, startsBlank, isBlank]
  have scanned : (block p tokens p.column indents true).token? '-' = some
      (block (p.skip 1) (tokens ++ [.dash]) p.column indents true) := by
    rw [token?]
    simp [marker, alone, entry?, block, inFlow, roll, dropKey?, emit]
  exact ⟨p.skip 1, by simp [Place.skip, starts], rfl, by rw [step, scanned, Option.bind_some]⟩

/-- How the text of a word is read back. -/
def styleOf (word : List Char) : Style := if (boolOf? word).isSome || isNullWord word then .other else .plain

/-- A word as an item, in quotes if it would stand for something else, up to the next line. -/
theorem item_turns (starts : p.rest = ' ' :: (scalarText word ++ '\n' :: (List.replicate k ' ' ++ rest)))
    (isWord : IsWord word) (solid : IsSolid rest) (left : (k : Int) ≤ indent) (right : indent ≤ p.column) (n : Nat) :
    ∃ s', run? (n + 1) (block p tokens indent indents true) = run? n s' ∧
      s'.Turned (tokens ++ [.scalar (styleOf word) word]) indent indents k rest := by
  have needless : ∀ column : Nat, column = p.column + 1 → (indent == (column : Int)) = false := fun column is => by
    rw [beq_eq_false_iff_ne]
    omega
  by_cases quotes : ((boolOf? word).isSome || isNullWord word) = true
  · simp only [scalarText, styleOf, if_pos quotes] at starts ⊢
    have starts : p.rest = ' ' :: ('\'' :: (word ++ '\'' :: '\n' :: (List.replicate k ' ' ++ rest))) := by simpa using starts
    have arrived := @arrived_blank _ tokens _ indents true _ starts (.cons rfl rfl (by decide) (by decide)) right
    obtain ⟨q, column, starts, step⟩ := arrived.step n
    have scanned : (block q tokens indent indents true).token? '\'' = some
        ((block (q.skip (word.length + 2)) (tokens ++ [.scalar .other word]) indent indents false).noting
          ⟨tokens.length, q, false⟩) := by
      have marker : ∀ mark, q.atMarker mark = false := fun mark => by simp [Place.atMarker, column]
      have read := quoted_word isWord.2 starts (by simp)
      rw [token?]
      simp [marker, content?, noteKey?, dropKey?, block, read, emit, noting, inFlow, needless q.column column]
    have after : (q.skip (word.length + 2)).rest = '\n' :: (List.replicate k ' ' ++ rest) := by
      simp [Place.skip, starts]
    refine ⟨_, by rw [step, scanned, Option.bind_some], (q.skip (word.length + 2)).nextLine k, ?_, rfl, ?_⟩
    · rw [toNext_noting, toNext_line after solid]
      exact (dropStale?_noting rfl rfl).2 (Nat.lt_succ_self _) rfl
    · simp [Place.nextLine, after]
  · simp only [scalarText, styleOf, if_neg quotes] at starts ⊢
    have arrived := @arrived_blank _ tokens _ indents true _ starts (isWord.solid _) right
    obtain ⟨c, more, rfl⟩ := List.exists_cons_of_ne_nil isWord.1
    obtain ⟨q, column, starts, step⟩ := arrived.step n
    have starts : q.rest = (c :: more) ++ '\n' :: (List.replicate k ' ' ++ rest) := starts
    have scanned : (block q tokens indent indents true).token? c = some
        ((block ((q.skip (c :: more).length).nextLine k) (tokens ++ [.scalar .plain (c :: more)]) indent indents true).noting
          ⟨tokens.length, q, false⟩) := by
      rw [token?_word isWord starts c rfl]
      simp [plain?, noteKey?, dropKey?, block, plain_value isWord starts solid (by omega : (k : Int) < indent + 1), emit,
        noting, inFlow, needless q.column column]
    have after : ((q.skip (c :: more).length).nextLine k).rest = rest := nextLine_rest (skip_rest starts)
    refine ⟨_, by rw [step, scanned, Option.bind_some], (q.skip (c :: more).length).nextLine k, ?_, rfl, after⟩
    rw [toNext_noting, toNext_here (by exact after.symm ▸ solid)]
    exact (dropStale?_noting rfl rfl).2 (Nat.lt_succ_self _) rfl

/-! ## Lines -/

/-- A line with a key and a word for its value. -/
theorem Arrived.member {value : List Char} {j : Nat}
    (arrived : s.Arrived tokens indent indents true k (word ++ ':' :: ' ' :: (value ++ '\n' :: (List.replicate j ' ' ++ rest))))
    (isWord : IsWord word) (short : word.length ≤ keyReach) (le : indent ≤ k) (isValue : IsWord value)
    (solid : IsSolid rest) (left : j ≤ k) (n : Nat) :
    ∃ s', run? (n + 3) s = run? n s' ∧ s'.Turned
      (tokens ++ (if indent < k then [.mappingStart] else []) ++
        [.key, .scalar .plain word, .value, .scalar .plain value]) k (if indent < k then indent :: indents else indents) j
      rest := by
  obtain ⟨p, starts, right, run⟩ := arrived.key isWord short le rfl (n + 1)
  obtain ⟨s', run', turned⟩ := @value_turns _ (tokens ++ (if indent < k then [.mappingStart] else []) ++
    [.key, .scalar .plain word, .value]) k (if indent < k then indent :: indents else indents) _ _ _ starts isValue solid
    (by omega) (by omega) n
  exact ⟨s', run.trans run', by simpa using turned⟩

/-- A line with a key alone. -/
theorem Arrived.section {j : Nat}
    (arrived : s.Arrived tokens indent indents true k (word ++ ':' :: '\n' :: (List.replicate j ' ' ++ rest)))
    (isWord : IsWord word) (short : word.length ≤ keyReach) (le : indent ≤ k) (solid : IsSolid rest) (n : Nat) :
    ∃ s', run? (n + 2) s = run? n s' ∧ s'.Turned
      (tokens ++ (if indent < k then [.mappingStart] else []) ++ [.key, .scalar .plain word, .value]) k
      (if indent < k then indent :: indents else indents) j rest := by
  obtain ⟨p, starts, _, run⟩ := arrived.key isWord short le rfl n
  exact ⟨_, run, turned_line starts solid⟩

/-- A line with an item. -/
theorem Arrived.item {j : Nat}
    (arrived : s.Arrived tokens k indents true k ('-' :: ' ' :: (scalarText word ++ '\n' :: (List.replicate j ' ' ++ rest))))
    (isWord : IsWord word) (solid : IsSolid rest) (left : j ≤ k) (n : Nat) :
    ∃ s', run? (n + 2) s = run? n s' ∧
      s'.Turned (tokens ++ [.dash, .scalar (styleOf word) word]) k indents j rest := by
  obtain ⟨p, starts, column, run⟩ := arrived.dash (n + 1)
  obtain ⟨s', run', turned⟩ := @item_turns _ (tokens ++ [.dash]) k indents _ _ _ starts isWord solid (by omega)
    (by omega) n
  exact ⟨s', run.trans run', by simpa using turned⟩

end StoreModels.Yaml.Scanner
