import Leancrypto.Bytes
import Leancrypto.Keccak.State
import Leancrypto.Keccak.ArmAbsorb
import Leancrypto.Keccak.ArmSqueeze
import Leancrypto.HashCrypt.Cryptor
import Leancrypto.HashCrypt.Keystream
import Leancrypto.HashCrypt.RoundTrip
import Leancrypto.HashCrypt.Lifecycle
import Leancrypto.Memory.SupportLinux
import Leancrypto.Dilithium.Hint
import Leancrypto.Drng.Fke
import Leancrypto.Drng.KmacDrng
import Leancrypto.Drng.Xdrbg
import Leancrypto.Init.CpuFeatures
import Leancrypto.SlhDsa.Wots
import Leancrypto.SlhDsa.BaseW
import Leancrypto.Drng.ChaCha20Drng
import Leancrypto.Memory.Aligned
import Leancrypto.Aes.Scr
import Leancrypto.Aes.Fips197
import Leancrypto.SlhDsa.TreeHash
import Leancrypto.SlhDsa.PrfAddrx2
import Leancrypto.Hqc.Gf
import Leancrypto.Hqc.GfMul
import Leancrypto.Hqc.GfField
import Leancrypto.Hqc.Fft
import Leancrypto.Hqc.Radix
import Leancrypto.Hqc.FftEval
import Leancrypto.Hqc.FftRetrieve
import Leancrypto.Bike.Sampling
import Leancrypto.SideChannel
