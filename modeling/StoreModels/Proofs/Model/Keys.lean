import StoreModels.Proofs.Document.Alongside
import StoreModels.Proofs.Model.Reached

/-!
Names between quotes, and the keys of pairs that edits write. A name between quotes is one string, which stands for the
name; so a pair that is written under a name is found under this name, whatever is edited afterwards.
-/
namespace StoreModels
open Syntax (Dialect Reader Role sampleReader)

namespace Literal
variable {quote c : Char}

/-! ## One string -/

/-- The positions of a character in a text, counted from some number, those behind a backslash left out. -/
def unescapedAt (c : Char) : Nat → List Char → List Nat
  | _, [] => []
  | i, '\\' :: _ :: rest => unescapedAt c (i + 2) rest
  | i, d :: rest => (if d = c then [i] else []) ++ unescapedAt c (i + 1) rest

theorem unescapedAt_plain {d : Char} (plain : d ≠ '\\') (i : Nat) (rest : List Char) :
    unescapedAt c i (d :: rest) = (if d = c then [i] else []) ++ unescapedAt c (i + 1) rest := by
  rw [unescapedAt.eq_def]
  split
  · cases ‹d :: rest = []›
  next same =>
    cases same
    exact absurd rfl plain
  next same =>
    cases same
    rfl

/-- A text is one string between two quote characters: it starts with one, the only other one that no backslash takes is
    its last character, and it goes over no end of a line. -/
structure IsString (quote : Char) (raw : List Char) : Prop where
  first : raw.head? = some quote
  ends : unescapedAt quote 0 raw = [0, raw.length - 1]
  feed : '\n' ∉ raw
  ret : '\r' ∉ raw

theorem quote_plain (isQuote : isQuote quote = true) : quote ≠ '\\' := by
  rintro rfl
  cases isQuote

/-- A character as it is written is no quote that could end a string. -/
theorem unescapedAt_escapeChar (isQuote : isQuote quote = true) (c : Char) (i : Nat) (rest : List Char) :
    unescapedAt quote i (escapeChar quote c ++ rest) = unescapedAt quote (i + (escapeChar quote c).length) rest := by
  have plain := quote_plain isQuote
  unfold escapeChar
  split
  · rfl
  next other =>
    split
    · rfl
    split
    · rfl
    split
    · rfl
    split
    · rfl
    next apart =>
      rw [List.singleton_append, unescapedAt_plain other, if_neg apart]
      rfl

theorem unescapedAt_inside (isQuote : isQuote quote = true) (text : List Char) (i : Nat) (rest : List Char) :
    unescapedAt quote i (text.flatMap (escapeChar quote) ++ rest) =
      unescapedAt quote (i + (text.flatMap (escapeChar quote)).length) rest := by
  induction text generalizing i with
  | nil => rfl
  | cons c text ih =>
    rw [List.flatMap_cons, List.append_assoc, unescapedAt_escapeChar isQuote, ih, List.length_append, Nat.add_assoc]

/-- A text between quotes is one string. -/
theorem isString_quoted (isQuote : isQuote quote = true) (text : List Char) : IsString quote (quoted text quote) where
  first := rfl
  ends := by
    have plain := quote_plain isQuote
    have length : (quoted text quote).length - 1 = 1 + (text.flatMap (escapeChar quote)).length := by
      simp only [quoted, List.cons_append, List.length_cons, List.length_append, List.length_nil]
      omega
    rw [length, quoted, List.cons_append, unescapedAt_plain plain, if_pos rfl, unescapedAt_inside isQuote,
      unescapedAt_plain plain, if_pos rfl, Nat.zero_add]
    rfl
  feed := not_mem_quoted isQuote text
  ret := not_mem_quoted_break (.inr rfl) isQuote text

end Literal

namespace Document
variable {first doc doc' : Document} {dialect : Dialect} {source name : List Char} {quote : Char}
  {pair value : NodeId}

/-! ## Keys that stay -/

theorem KeyFor.role_ne {key : NodeId} (isKey : doc.KeyFor name quote key) :
    doc.role key ≠ .object ∧ doc.role key ≠ .pair ∧ doc.role key ≠ .shorthandProperty ∧
      doc.role key ≠ .methodDefinition := by
  rw [Document.role, Node.role, isKey.kind, keyKind]
  split <;> decide

/-- A change of the children of another node than the pair leaves its key as it is. -/
theorem Heads.elsewhere {p : NodeId} {loose : List NodeId} (heads : doc.Heads name quote pair value) (forest : doc.Forest)
    (calm : Calm doc doc' (fun z => z = p) loose) (other : p ≠ pair)
    (whole : doc.role p = .object ∨ doc.children p ≠ []) : doc'.Heads name quote pair value := by
  obtain ⟨key, parts, isKey⟩ := heads.parts
  have off : p ≠ key := by
    rintro rfl
    rcases whole with object | some
    · exact isKey.role_ne.1 object
    · exact some isKey.leaf
  refine heads.calm calm forest (fun same => other same.symm) fun c member aside same => ?_
  rw [parts, List.mem_cons, List.mem_singleton] at member
  exact off (same.symm.trans (member.resolve_right aside))

/-- Only the value of a written pair may make way for another node. -/
theorem Heads.replaceable {old : NodeId} (heads : doc.Heads name quote pair value) (listed : old ∈ doc.children pair)
    (may : doc.Replaceable pair old) : old = value := by
  obtain ⟨key, parts, isKey⟩ := heads.parts
  obtain ⟨_, notPair, notShort, notMethod⟩ := isKey.role_ne
  rw [parts, List.mem_cons, List.mem_singleton] at listed
  refine listed.resolve_left ?_
  rintro rfl
  rcases may with ⟨_, field⟩ | short | method | ⟨paired, _⟩
  · rw [isKey.field] at field
    exact absurd field (by decide)
  · exact notShort short
  · exact notMethod method
  · exact notPair paired

/-- A move leaves the key of a written pair as it is; at most the pair gets another value. -/
theorem Move.heads [Reader] (move : Move doc doc') (sound : doc.Sound) (heads : doc.Heads name quote pair value) :
    ∃ value', doc'.Heads name quote pair value' := by
  have forest := sound.forest
  have still : ∀ {loose}, Calm doc doc' (fun _ => False) loose → ∃ value', doc'.Heads name quote pair value' :=
    fun calm => ⟨value, heads.calm calm forest id fun _ _ _ => id⟩
  have notObject : ∀ {p}, doc.role p = .object → p ≠ pair := by
    rintro p object rfl
    rw [heads.role] at object
    cases object
  cases move with
  | leaf kind text _ => exact still (writeLeaf_prolongs doc kind text).calm
  | adopt snippet read => exact still (parseExpression_calm read sound)
  | copy present =>
    obtain ⟨_, twin, copied⟩ := duplicate_duplicated forest present
    exact still copied.longer.calm
  | join kind parts _ distinct free _ =>
    have joined := (writeNode_joined doc kind parts distinct fun c member => (free c member).lt).2
    exact still (joined.calm free)
  | @replace _ p old new parent free apart may run =>
    have replaced := Replaced.of_ok forest parent free apart run
    have listed := forest.parentChild parent
    by_cases here : p = pair
    · subst here
      cases heads.replaceable listed may
      exact ⟨new, heads.revalued replaced forest free⟩
    · exact ⟨value, heads.elsewhere forest (replaced.calm free) here (.inr (List.ne_nil_of_mem listed))⟩
  | append object free apart run =>
    have appended := Appended.of_ok forest object free apart run
    exact ⟨value, heads.elsewhere forest (appended.calm free) (notObject object) (.inl object)⟩
  | remove parent object run =>
    have removed := Removed.of_ok forest parent object run
    exact ⟨value, heads.elsewhere forest removed.calm (notObject object) (.inl object)⟩

theorem Moves.heads [Reader] (moves : doc.Moves doc') (sound : doc.Sound) (heads : doc.Heads name quote pair value) :
    ∃ value', doc'.Heads name quote pair value' := by
  induction moves with
  | refl => exact ⟨value, heads⟩
  | tail before move ih =>
    obtain ⟨mid, there⟩ := ih
    exact move.heads (Moves.sound before sound) there

/-- A name between quotes is one string, which stands for the name and tells its quotes. A pair that is written under a
    name, in a document that comes from a file and at whatever point of an edit, is keyed with exactly this name: bare
    where the name can stand so, and as a string otherwise. No later edit changes that. -/
theorem written_keys (name : List Char) {quote : Char} (isQuote : Literal.isQuote quote = true) :
    (Literal.IsString quote (Literal.quoted name quote) ∧ Literal.unquoted (Literal.quoted name quote) = name ∧
        Literal.quoteOf (Literal.quoted name quote) = quote) ∧
      ∀ [Reader] {dialect : Dialect} {source : List Char} {first reached doc : Document},
        Document.parse dialect source = .ok first → Reached first reached → reached.Moves doc →
        ∀ value, doc.Free value → ∃ pair made,
          Edit.outcome (Model.writePair name quote value) doc = (.ok pair, made) ∧ made.role pair = .pair ∧
            ∀ later, made.Moves later →
              later.entryKey? pair = some (if Literal.isBareName name then .identifier name else .literal name) ∧
                later.entryName? pair = some name := by
  refine ⟨⟨Literal.isString_quoted isQuote name, Literal.unquoted_quoted isQuote name,
    Literal.quoteOf_quoted isQuote name⟩, ?_⟩
  intro _ dialect source first reached doc file edits moves value free
  have sound := moves.sound (edits.sound file)
  have ready : Ready doc [] [] := .self sound (by simp)
  obtain ⟨made, run, wrote, written, _⟩ := writePair_run ready ⟨free, by simp⟩ name quote
  refine ⟨_, made, run, written.role_pair, fun later follows => ?_⟩
  have soundly := wrote.moves.sound sound
  obtain ⟨held, heads⟩ := follows.heads soundly written.heads
  have forest := (follows.sound soundly).forest
  exact ⟨heads.entryKey? forest isQuote, heads.entryName? forest isQuote⟩

theorem written_keys_sample :
    Literal.quoted ['\\', '\''] '\'' = ['\'', '\\', '\\', '\\', '\'', '\''] ∧
      Literal.unquoted (Literal.quoted ['\\', '\''] '\'') = ['\\', '\''] ∧
      ∃ pair made,
        Edit.outcome (Model.writePair ['\\', '\''] '\'' sampleFile.nodes.size) (sampleFile.writeLeaf "number" ['1']).1 =
            (.ok pair, made) ∧
          made.entryKey? pair = some (.literal ['\\', '\'']) := by
  have sound : sampleFile.Sound := @parse_sound _ _ _ sampleReader sampleFile_parsed
  have loose : Loose (sampleFile.writeLeaf "number" ['1']).1 [] sampleFile.nodes.size :=
    writeLeaf_loose sound (by simp) "number" ['1']
  have moves : @Moves sampleReader sampleFile (sampleFile.writeLeaf "number" ['1']).1 :=
    Relation.ReflTransGen.single (@Move.leaf sampleReader sampleFile "number" ['1'] (by decide))
  obtain ⟨⟨_, back, _⟩, keyed⟩ := written_keys ['\\', '\''] (show Literal.isQuote '\'' = true from rfl)
  obtain ⟨pair, made, run, _, stays⟩ := @keyed sampleReader _ _ _ _ _ sampleFile_parsed (@Reached.refl sampleReader _) moves _ loose.free
  have key := (stays made Relation.ReflTransGen.refl).1
  exact ⟨rfl, back, pair, made, run, key⟩

end Document

end StoreModels
