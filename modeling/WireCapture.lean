import WireCapture.Frame.Writer
import WireCapture.Main
import WireCapture.Reader.Field
import WireCapture.Proofs.WrittenEntity
import WireCapture.Proofs.DepthLimit
import WireCapture.Proofs.FrameRoundTrip
import WireCapture.Proofs.FrameWriting
import WireCapture.Proofs.StreamCalls
import WireCapture.Proofs.SentFrames
import WireCapture.Proofs.CutCapture
import WireCapture.Proofs.LatestRows
import WireCapture.Proofs.ReadEntity
import WireCapture.Proofs.TypeChoice
import WireCapture.Proofs.FramesCommand
import WireCapture.Proofs.FieldSequences
import WireCapture.Proofs.FramingGrammar
import WireCapture.Proofs.DecodingCost
import WireCapture.Proofs.TextFields
import WireCapture.Proofs.Utf16
import WireCapture.Proofs.ListingLines
import WireCapture.Proofs.OptionLines
import WireCapture.Proofs.IgnoredLines
import WireCapture.Proofs.ApartRows
import WireCapture.Proofs.RegisteredTags
import WireCapture.Proofs.PrintedDocuments
import WireCapture.Proofs.CompactDocuments
import WireCapture.Proofs.RenderedFrames
import WireCapture.Proofs.FirstInstallation
import WireCapture.Proofs.MaskLaws
import WireCapture.Proofs.PaddedNumerals
