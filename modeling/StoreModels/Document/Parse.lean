import StoreModels.Document.Print
import StoreModels.Syntax.Reader
import StoreModels.Document.Basic

/-!
Documents from texts: whole files, and expressions that are added to a document.
-/
namespace StoreModels
open Syntax (Dialect Reader)

/-- Why a text could not be read: it does not follow the grammar, or it is no single expression. -/
inductive ReadError
  | syntaxError (inSnippet : Bool)
  | mismatch (m : Mismatch)
  deriving DecidableEq, Repr

namespace Document
variable [Reader]

/-- The document of a file. -/
def parse (dialect : Dialect) (source : List Char) : Except ReadError Document :=
  match Reader.program? dialect source with
  | some tree => .ok (ofTree dialect source tree)
  | none => .error (.syntaxError false)

/-- The document with the tree of an expression added to its nodes, and the number of the tree's root. Blanks around
    the snippet do not count. -/
def parseExpression (doc : Document) (snippet : List Char) : Except ReadError (Document × NodeId) :=
  let snippet := Text.trim snippet
  match Syntax.parseSnippet doc.dialect snippet with
  | .error .syntaxError => .error (.syntaxError true)
  | .error .notSingle => .error (.mismatch (.notSingleExpression snippet))
  | .error .commaSequence => .error (.mismatch (.commaSequence snippet))
  | .ok tree =>
    let buffer := doc.buffers.length
    let doc := { doc with buffers := doc.buffers ++ [Syntax.snippetText snippet] }
    let (doc, id) := doc.adopt buffer none tree
    .ok (doc.update id fun node => { node with field := none }, id)

/-- The document of a document's current text, printed and read again. -/
def reparse (doc : Document) : Except ReadError Document :=
  (parse doc.dialect doc.print).map fun new => new.withFallbackIndent doc.fallbackIndent

end Document

end StoreModels
