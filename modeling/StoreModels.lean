import StoreModels.Command
import StoreModels.Decimal.Binary64
import StoreModels.Decimal.Shortest
import StoreModels.Document.Basic
import StoreModels.Document.Edit
import StoreModels.Document.Layout
import StoreModels.Document.Parse
import StoreModels.Document.Print
import StoreModels.Json.Read
import StoreModels.Json.Value
import StoreModels.Literal.Number
import StoreModels.Literal.Quoted
import StoreModels.Main
import StoreModels.Model.Edit
import StoreModels.Model.Match
import StoreModels.Model.Key
import StoreModels.Model.Property
import StoreModels.Path
import StoreModels.Proofs.Document.Forest
import StoreModels.Proofs.Document.Table
import StoreModels.Proofs.Text.Splice
import StoreModels.Record.Extract
import StoreModels.Record.Evaluate
import StoreModels.Request.Operation
import StoreModels.Request.Payload
import StoreModels.Service.Run
import StoreModels.Settings.Basic
import StoreModels.Settings.Environment
import StoreModels.Settings.Text
import StoreModels.Storage.Basic
import StoreModels.Storage.Disk
import StoreModels.Storage.Session
import StoreModels.Syntax.Automaton
import StoreModels.Syntax.Derivation
import StoreModels.Syntax.Dialect
import StoreModels.Syntax.Grammar
import StoreModels.Syntax.Grammar.Expressions
import StoreModels.Syntax.Grammar.Functions
import StoreModels.Syntax.Grammar.Markup
import StoreModels.Syntax.Grammar.Modules
import StoreModels.Syntax.Grammar.Orders
import StoreModels.Syntax.Grammar.Patterns
import StoreModels.Syntax.Grammar.Rule
import StoreModels.Syntax.Grammar.Statements
import StoreModels.Syntax.Grammar.Token
import StoreModels.Syntax.Grammar.Types
import StoreModels.Syntax.Production
import StoreModels.Syntax.Reading
import StoreModels.Syntax.Reader
import StoreModels.Syntax.Role
import StoreModels.Syntax.Scan
import StoreModels.Syntax.Spelling
import StoreModels.Syntax.Tables
import StoreModels.Syntax.Tree
import StoreModels.Text.Lines
import StoreModels.Text.Position
import StoreModels.Yaml.Format
import StoreModels.Yaml.Node
import StoreModels.Yaml.Place
import StoreModels.Yaml.Read
import StoreModels.Yaml.Scalar
import StoreModels.Yaml.Token
import StoreModels.Yaml.Write
import StoreModels.Proofs.Document.Edits
import StoreModels.Proofs.Document.Growth
import StoreModels.Proofs.Document.Lineage
import StoreModels.Proofs.Document.Loose
import StoreModels.Proofs.Document.Render
import StoreModels.Proofs.Model.Consistent
import StoreModels.Proofs.Model.Marks
import StoreModels.Proofs.Model.Untouched
import StoreModels.Proofs.Service.MapFiles
import StoreModels.Proofs.Service.Requests
import StoreModels.Proofs.Document.Swap
import StoreModels.Proofs.Record.Parts
import StoreModels.Proofs.Record.Reported
import StoreModels.Proofs.Document.Calm
import StoreModels.Proofs.Document.Plain
import StoreModels.Proofs.Literal.Quoting
import StoreModels.Proofs.Record.Containers
import StoreModels.Proofs.Record.Snippets
import StoreModels.Proofs.Record.Stock
import StoreModels.Proofs.Record.Standing
import StoreModels.Proofs.Record.Steps
import StoreModels.Proofs.Record.Refinement
import StoreModels.Proofs.Text.Breaks
import StoreModels.Proofs.Model.Origins
import StoreModels.Proofs.Document.Breaks
import StoreModels.Proofs.Model.Returns
import StoreModels.Proofs.Document.Trees
import StoreModels.Proofs.Document.Forms
import StoreModels.Proofs.Literal.Spelled
import StoreModels.Proofs.Service.Created
import StoreModels.Proofs.Literal.Exchange
import StoreModels.Proofs.Record.Exchange
import StoreModels.Proofs.Model.Renamed
import StoreModels.Proofs.Model.Retitled
import StoreModels.Proofs.Document.Reread
import StoreModels.Proofs.Model.Respelled
import StoreModels.Proofs.Service.Renaming
import StoreModels.Proofs.Settings.Returning
import StoreModels.Proofs.Checked.Reached
import StoreModels.Proofs.Model.Entered
import StoreModels.Proofs.Model.Refilled
import StoreModels.Proofs.Model.Substituted
import StoreModels.Proofs.Model.Halted
import StoreModels.Proofs.Model.Undone
import StoreModels.Proofs.Document.Removal
import StoreModels.Proofs.Document.Abreast
import StoreModels.Proofs.Document.Order
import StoreModels.Proofs.Record.Matched
import StoreModels.Proofs.Record.Dispatched
import StoreModels.Proofs.Model.Rematched
import StoreModels.Proofs.Model.Located
import StoreModels.Proofs.Model.Enlarged
import StoreModels.Proofs.Model.Received
import StoreModels.Proofs.Document.Alongside
import StoreModels.Proofs.Document.Grafts
import StoreModels.Proofs.Model.Likewise
import StoreModels.Proofs.Model.Lockstep
import StoreModels.Proofs.Model.Reaching
import StoreModels.Proofs.Model.Chasing
import StoreModels.Proofs.Model.Renewed
import StoreModels.Proofs.Model.Repeated
import StoreModels.Proofs.Literal.Integers
import StoreModels.Proofs.Literal.Decoding
import StoreModels.Proofs.Record.Positions
import StoreModels.Proofs.Model.Keys
import StoreModels.Proofs.Record.Naming
import StoreModels.Proofs.Document.Partition
import StoreModels.Proofs.Document.Orderly
import StoreModels.Proofs.Document.Rows
import StoreModels.Proofs.Document.Works
import StoreModels.Proofs.Record.Copies
import StoreModels.Proofs.Document.Walks
import StoreModels.Proofs.Document.Calls
import StoreModels.Proofs.Text.Lines
import StoreModels.Proofs.Text.Offsets
import StoreModels.Proofs.Text.Indented
import StoreModels.Proofs.Text.Comments
import StoreModels.Proofs.Model.Restated
import StoreModels.Proofs.Document.Listed
