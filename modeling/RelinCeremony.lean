import RelinCeremony.Decimal.Notation
import RelinCeremony.Modulus.Montgomery
import RelinCeremony.Modulus.Shoup
import RelinCeremony.Prime.Search
import RelinCeremony.Protocol.Aggregation
import RelinCeremony.Protocol.Description
import RelinCeremony.Protocol.Key
import RelinCeremony.Protocol.Rounds
import RelinCeremony.Random.Variance
import RelinCeremony.Random.Vector
import RelinCeremony.Ring.Sampler
import RelinCeremony.Transform.Apply
import RelinCeremony.Proofs.Protocol.NoiseGrowth
import RelinCeremony.Proofs.Protocol.Relinearization
import RelinCeremony.Proofs.Protocol.Splitting
import RelinCeremony.Proofs.Ring.Decoding
import RelinCeremony.Proofs.Protocol.Slots
import RelinCeremony.Proofs.Protocol.Combination
import RelinCeremony.Proofs.Protocol.Schedule
import RelinCeremony.Proofs.Protocol.InPlace
import RelinCeremony.Proofs.Protocol.ShapeChecks
import RelinCeremony.Proofs.Protocol.Session
import RelinCeremony.Proofs.Random.Rejection
import RelinCeremony.Proofs.Protocol.ReducedRounds
import RelinCeremony.Proofs.Protocol.Safety
import RelinCeremony.Proofs.Ring.RoundTrip
import RelinCeremony.Proofs.Ring.Reach
import RelinCeremony.Proofs.Protocol.ForeignShares
import RelinCeremony.Proofs.Protocol.Workers
import RelinCeremony.Proofs.Protocol.ScheduledRounds
import RelinCeremony.Proofs.Protocol.SlotSeeds
import RelinCeremony.Proofs.Protocol.ParameterFaults
import RelinCeremony.Proofs.Protocol.ModulusChoice
import RelinCeremony.Proofs.Transform.Inverse
import RelinCeremony.Proofs.Modulus.MontgomeryForm
import RelinCeremony.Proofs.Ring.Acceptance
import RelinCeremony.Proofs.Ring.DigitShift
import RelinCeremony.Proofs.Ring.SampledIntegers
import RelinCeremony.Proofs.Modulus.ShoupProduct
import RelinCeremony.Proofs.Ring.FusedProducts
import RelinCeremony.Proofs.RowMajor
import RelinCeremony.Proofs.Modulus.SignedLift
import RelinCeremony.Proofs.Modulus.Exponentiation
import RelinCeremony.Proofs.Transform.Representation
import RelinCeremony.Proofs.Ring.NormalLoop
