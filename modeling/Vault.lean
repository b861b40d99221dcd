import Vault.Container.FileLike
import Vault.Container.Stamps
import Vault.Container.Upkeep
import Vault.Proofs.Agreement
import Vault.Proofs.Appending
import Vault.Proofs.Blockwise
import Vault.Proofs.Brim
import Vault.Proofs.Coherence
import Vault.Proofs.Demands
import Vault.Proofs.DescriptorRecords
import Vault.Proofs.EarlyEnd
import Vault.Proofs.Extents
import Vault.Proofs.Failures
import Vault.Proofs.GaloisCounter
import Vault.Proofs.HeaderRecords
import Vault.Proofs.Interrupted
import Vault.Proofs.Lagging
import Vault.Proofs.Overlooked
import Vault.Proofs.Piecewise
import Vault.Proofs.Resting
import Vault.Proofs.Rollback
import Vault.Proofs.StampSettings
import Vault.Proofs.Tampered
import Vault.Proofs.Trailing
import Vault.Proofs.Unopened
import Vault.Proofs.Whereabouts
