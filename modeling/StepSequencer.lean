import StepSequencer.Files.Disk
import StepSequencer.Main
import StepSequencer.Playback.SamplePlayer
import StepSequencer.Proofs.CommandLine.ArgumentGroups
import StepSequencer.Proofs.Playback.GridPlays
import StepSequencer.Proofs.Playback.KnownSamples
import StepSequencer.Proofs.Rule.Congruences
import StepSequencer.Proofs.Rule.Decoded
import StepSequencer.Proofs.Rule.WholeArithmetic
import StepSequencer.Proofs.Screen.Pages
import StepSequencer.Proofs.Script.BlockStructure
import StepSequencer.Proofs.Script.ExpressionText
import StepSequencer.Proofs.Script.FixedPoint
import StepSequencer.Proofs.Script.HostEquality
import StepSequencer.Proofs.Script.Lowering
import StepSequencer.Proofs.Script.Numbering
import StepSequencer.Proofs.Script.ReducedComparisons
import StepSequencer.Proofs.Script.ReducedRules
import StepSequencer.Proofs.Script.RoundTrip
import StepSequencer.Proofs.Script.TokenLines
import StepSequencer.Proofs.Script.Turns
import StepSequencer.Proofs.Script.UncheckedScript
import StepSequencer.Proofs.Sound.Blocks
import StepSequencer.Proofs.Sound.DeviceData
import StepSequencer.Proofs.Sound.Phases
import StepSequencer.Proofs.Sound.VoicePool
import StepSequencer.Proofs.Track.Stored
import StepSequencer.Screen.View
