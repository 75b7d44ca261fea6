import PlainScore.Main
import PlainScore.Proofs.CommandLine.Range
import PlainScore.Proofs.Meter
import PlainScore.Proofs.Mixer.Queues
import PlainScore.Proofs.Pitch
import PlainScore.Proofs.Score.Ties
import PlainScore.Proofs.Session.Interrupt
import PlainScore.Proofs.Session.Leaving
import PlainScore.Proofs.Session.Room
import PlainScore.Proofs.Session.Rounds
import PlainScore.Proofs.Session.Stopping
import PlainScore.Proofs.Synth.Totals
import PlainScore.Proofs.Token.Duration
import PlainScore.Proofs.Track.Parse
import PlainScore.Proofs.Track.Slice
