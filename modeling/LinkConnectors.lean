import LinkConnectors.Options.Fields
import LinkConnectors.Options.Toml
import LinkConnectors.Proofs.Table.Seating
import LinkConnectors.Session.Matrix
import LinkConnectors.Session.Parse
import LinkConnectors.Session.Strings
import LinkConnectors.Session.Table
import LinkConnectors.Proofs.Interner
import LinkConnectors.Proofs.Table.Capacity
import LinkConnectors.Proofs.Table.CoreOrder
import LinkConnectors.Proofs.Table.Numbering
import LinkConnectors.Proofs.Table.Frame
import LinkConnectors.Proofs.Table.Interning
import LinkConnectors.Proofs.Session.Run
import LinkConnectors.Proofs.Session.Layout
import LinkConnectors.Proofs.Session.NameList
import LinkConnectors.Proofs.Encoding
import LinkConnectors.Proofs.Session.Grouping
import LinkConnectors.Proofs.Matching
import LinkConnectors.Proofs.Suffix
import LinkConnectors.Proofs.Session.Matching
import LinkConnectors.Proofs.Table.CoreRange
import LinkConnectors.Proofs.Reach.Hits
import LinkConnectors.Proofs.Reach.Stamping
import LinkConnectors.Proofs.Session.Limits
import LinkConnectors.Proofs.Arena.Slots
import LinkConnectors.Proofs.Arena.Chains
import LinkConnectors.Proofs.Session.Chains
import LinkConnectors.Proofs.Arena.Reuse
import LinkConnectors.Proofs.Session.Undo
import LinkConnectors.Proofs.Session.Frozen
import LinkConnectors.Proofs.Session.Handles
import LinkConnectors.Proofs.Table.Plain
import LinkConnectors.Proofs.Session.Refusals
import LinkConnectors.Proofs.Token
import LinkConnectors.Proofs.Dictionary.Loading
import LinkConnectors.Proofs.Dictionary.Declared
import LinkConnectors.Proofs.Dictionary.Refusals
import LinkConnectors.Proofs.Dictionary.Tokens
import LinkConnectors.Proofs.Encoding.Grammar
import LinkConnectors.Proofs.Encoding.Octets
import LinkConnectors.Proofs.Text.Octets
import LinkConnectors.Proofs.Suffix.Slots
import LinkConnectors.Proofs.Encoding.Packing
import LinkConnectors.Proofs.Dictionary.Limits
import LinkConnectors.Proofs.Reach.Effective
import LinkConnectors.Proofs.Session.Hints
import LinkConnectors.Proofs.Session.Release
import LinkConnectors.Proofs.Session.Probing
import LinkConnectors.Proofs.Table.History
import LinkConnectors.Proofs.Session.History
import LinkConnectors.Proofs.Dictionary.History
import LinkConnectors.Proofs.Encoding.Partners
import LinkConnectors.Proofs.Encoding.Instances
import LinkConnectors.Proofs.Arena.LastWrites
import LinkConnectors.Proofs.Session.Isolation
import LinkConnectors.Proofs.Session.Sequence
import LinkConnectors.Proofs.Hash.Mixing
import LinkConnectors.Proofs.Hash.Links
import LinkConnectors.Proofs.Attempt
import LinkConnectors.Proofs.Text.Numeral
import LinkConnectors.Proofs.Text.Order
import LinkConnectors.Proofs.Reach.Defines
import LinkConnectors.Proofs.Session.Ranges
