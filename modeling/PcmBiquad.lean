import PcmBiquad.Error
import PcmBiquad.Single
import PcmBiquad.Text.Blank
import PcmBiquad.Filter.Kind
import PcmBiquad.Filter.Design
import PcmBiquad.Sample.Format
import PcmBiquad.Sample.Codec
import PcmBiquad.Double
import PcmBiquad.Filter.Response
import PcmBiquad.Filter.Biquad
import PcmBiquad.Ring.Region
import PcmBiquad.Text.Decimal
import PcmBiquad.Event
import PcmBiquad.Filter.Bank
import PcmBiquad.Ring.Advance
import PcmBiquad.Stream.Config
import PcmBiquad.Stream.Hook
import PcmBiquad.Stream.Bypass
import PcmBiquad.Stream.Filter
import PcmBiquad.Binding
import PcmBiquad.Proofs.Configure
import PcmBiquad.Proofs.Cycle
import PcmBiquad.Proofs.Frames
import PcmBiquad.Proofs.Session
import PcmBiquad.Proofs.Reset
import PcmBiquad.Proofs.Binary32
import PcmBiquad.Proofs.SampleCodec
import PcmBiquad.Proofs.CatchUp
import PcmBiquad.Proofs.Hooks
import PcmBiquad.Proofs.Canonical
import PcmBiquad.Proofs.Quantiser
import PcmBiquad.Proofs.Transparency
import PcmBiquad.Proofs.Recurrence
import PcmBiquad.Proofs.Channels
import PcmBiquad.Proofs.FrameArithmetic
import PcmBiquad.Proofs.Retuning
import PcmBiquad.Proofs.ExactDesign
import PcmBiquad.Proofs.Layouts
import PcmBiquad.Proofs.KindNames
