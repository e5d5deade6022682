import CodeTint.Config.Writer
import CodeTint.Main
import CodeTint.Proofs.Clipping
import CodeTint.Proofs.Clipping.Scanners
import CodeTint.Proofs.Clipping.Number
import CodeTint.Proofs.Clipping.Rule
import CodeTint.Proofs.Lookahead
import CodeTint.Proofs.Run
import CodeTint.Proofs.Relocation
import CodeTint.Proofs.Merging
import CodeTint.Proofs.Partition
import CodeTint.Proofs.Continuation
import CodeTint.Proofs.Splitting
import CodeTint.Proofs.Markup.Escaping
import CodeTint.Proofs.Markup.Tags
import CodeTint.Proofs.Markup.Reading
import CodeTint.Proofs.Directives
import CodeTint.Proofs.Warning
import CodeTint.Proofs.Standalone
import CodeTint.Proofs.Grouping
import CodeTint.Proofs.AttributeSwitch
import CodeTint.Proofs.Recoloring
import CodeTint.Proofs.Replay
import CodeTint.Proofs.Units
import CodeTint.Proofs.Loading
import CodeTint.Proofs.Framing
import CodeTint.Proofs.ExitCodes
import CodeTint.Proofs.Layers
import CodeTint.Proofs.Quotation
import CodeTint.Proofs.SettingsRoundTrip
import CodeTint.Proofs.Backtracking
import CodeTint.Proofs.Numerals
import CodeTint.Proofs.QuotedLiterals
import CodeTint.Proofs.RawLiterals
import CodeTint.Proofs.Utf8
import CodeTint.Proofs.OrderedGrammar
import CodeTint.Proofs.AttributeGrammar
import CodeTint.Proofs.Recognition
import CodeTint.Proofs.Precedence
import CodeTint.Proofs.Borders
import CodeTint.Proofs.Neighbours
import CodeTint.Proofs.Ordinary
import CodeTint.Proofs.OffsetLimit
import CodeTint.Proofs.Source.Offsets
import CodeTint.Proofs.Source.LineIndex
import CodeTint.Proofs.Source.Places
import CodeTint.Proofs.Source.Caret
import CodeTint.Proofs.ByteSearch
import CodeTint.Proofs.ByteRules
import CodeTint.Proofs.Progress
import CodeTint.Proofs.Json.Forms
import CodeTint.Proofs.SettingsForms
import CodeTint.Proofs.SettingsKeys
import CodeTint.Proofs.Markup.Copying
import CodeTint.Proofs.Json.Records
import CodeTint.Proofs.Listing
