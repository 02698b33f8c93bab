import GrSatellites.Ax100.Memory
import GrSatellites.Ccsds.Errors
import GrSatellites.Ccsds.FirstHeaderPointer
import GrSatellites.Ccsds.RoundTrip
import GrSatellites.Crc.Burst
import GrSatellites.Crc.Reflection
import GrSatellites.Doppler.Frequencies
import GrSatellites.Fec.Randomizer
import GrSatellites.Fec.ReedSolomon
import GrSatellites.Fec.Viterbi
import GrSatellites.Files.Cas5a
import GrSatellites.Files.Dsat
import GrSatellites.Files.Completion
import GrSatellites.Files.OrderIndependence
import GrSatellites.Files.Qo100Reassembly
import GrSatellites.Fixedlen.Order
import GrSatellites.Golay24.Codec
import GrSatellites.Hdlc.Output
import GrSatellites.K2sat.Deframer
import GrSatellites.Kiss.Resynchronisation
import GrSatellites.Kiss.RoundTrip
import GrSatellites.Kiss.TmTransport
import GrSatellites.Lilacsat.Windows
import GrSatellites.Mobitex.Frames
import GrSatellites.NanocomGolay.Decodable
import GrSatellites.Nanolink.Segmentation
import GrSatellites.PacketCsma.Safety
import GrSatellites.Rs.Stream
import GrSatellites.SatYaml.Soundness
import GrSatellites.Snet.Frames
import GrSatellites.SpacePacket.Counters
import GrSatellites.SpacePacket.RoundTrip
import GrSatellites.TimeDependentDelay.Filters
import GrSatellites.TimeDependentDelay.Tags
import GrSatellites.Tubix20.Isolation
import GrSatellites.U482c.RoundTrip
import GrSatellites.VarlenPacket.Layout
import GrSatellites.VarlenPacket.LengthSafety
import GrSatellites.Yusat.Crop
import GrSatellites.Eseo.LineCode
import GrSatellites.DistributedSyncframe.Detection
import GrSatellites.Pdus.Scrambler
import GrSatellites.Pdus.Crop
import GrSatellites.Pdus.NghamPadding
import GrSatellites.Nusat.Decoder
import GrSatellites.Ideassat.Payload
import GrSatellites.Crc.HandWritten
import GrSatellites.Descrambler308.Synchronisation
import GrSatellites.MatrixDeinterleaver.Permutation
import GrSatellites.TableFiles.Reading
import GrSatellites.Submit.Timestamp
import GrSatellites.Openlst.Decoding
import GrSatellites.Files.Directory
import GrSatellites.Files.K2satImage
import GrSatellites.Files.Sat1kunsPf
import GrSatellites.Files.Separation
