import StyleSelectors.Text.Position
import StyleSelectors.Text.Blank
import StyleSelectors.Token.Lexer
import StyleSelectors.Token.Printer
import StyleSelectors.Component.Nesting
import StyleSelectors.Selector.Equality
import StyleSelectors.Selector.Specificity
import StyleSelectors.Selector.RequiredType
import StyleSelectors.Selector.Printer
import StyleSelectors.Grammar.Parser
import StyleSelectors.Matching.Winner
import StyleSelectors.Matching.Lenient
import StyleSelectors.Document
import StyleSelectors.RuleIndex
import StyleSelectors.Occurrences
import StyleSelectors.Proofs.RuleIndex.Scan
import StyleSelectors.Proofs.RuleIndex.Cascade
import StyleSelectors.Proofs.RuleIndex.Stored
import StyleSelectors.Proofs.Token.Name
import StyleSelectors.Proofs.Token.Quoted
import StyleSelectors.Proofs.Token.ReadBack
import StyleSelectors.Proofs.Component.Whole
import StyleSelectors.Proofs.Component.ReadFrom
import StyleSelectors.Proofs.Selector.Legible
import StyleSelectors.Proofs.Selector.Part
import StyleSelectors.Proofs.Selector.Written
import StyleSelectors.Proofs.Grammar.Spelt
import StyleSelectors.Proofs.Grammar.Steps
import StyleSelectors.Proofs.Grammar.ReadBack
import StyleSelectors.Proofs.Grammar.Canonical
import StyleSelectors.Proofs.Token.Clean
import StyleSelectors.Proofs.Grammar.Parsed
import StyleSelectors.Proofs.Grammar.RoundTrip
import StyleSelectors.Proofs.Grammar.Complete
import StyleSelectors.Proofs.Grammar.Members
import StyleSelectors.Proofs.Grammar.Denoted
import StyleSelectors.Proofs.Grammar.Remarks
import StyleSelectors.Proofs.Grammar.Options
import StyleSelectors.Proofs.Grammar.Tokens
import StyleSelectors.Proofs.Grammar.Arguments
import StyleSelectors.Proofs.Text.Position
import StyleSelectors.Proofs.Token.LineEnds
import StyleSelectors.Proofs.Grammar.ErrorPlaces
import StyleSelectors.Proofs.Matching.Locality
import StyleSelectors.Proofs.Matching.Relaxed
import StyleSelectors.Proofs.Grammar.Provenance
import StyleSelectors.Proofs.Token.Sign
import StyleSelectors.Proofs.Grammar.Shape
import StyleSelectors.Proofs.Grammar.Causes
import StyleSelectors.Proofs.Grammar.Missing
import StyleSelectors.Proofs.Matching.ValueTests
import StyleSelectors.Proofs.Selector.Indistinct
import StyleSelectors.Proofs.Component.Closers
import StyleSelectors.Proofs.Token.Fits
import StyleSelectors.Proofs.Token.Url
import StyleSelectors.Proofs.Token.Kinds
import StyleSelectors.Proofs.Token.Weave
import StyleSelectors.Proofs.Token.Stands
import StyleSelectors.Proofs.Token.Rereads
import StyleSelectors.Proofs.Grammar.Reemit
