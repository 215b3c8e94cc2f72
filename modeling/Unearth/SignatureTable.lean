import Unearth.Signatures

/-!
# The built-in signature table

Order matters where magics overlap: an entry with a second tag stands before the
generic one for the same magic.
-/

namespace Unearth

def signatures : List Signature := [
  .mk "jpg".toList [0xFF, 0xD8, 0xFF] 0 none .jpeg (50 * mb),
  .mk "png".toList [0x89, 0x50, 0x4E, 0x47, 0x0D, 0x0A, 0x1A, 0x0A] 0 none
    (.footer [0x49, 0x45, 0x4E, 0x44, 0xAE, 0x42, 0x60, 0x82] 0) (100 * mb),
  .mk "mng".toList [0x8A, 0x4D, 0x4E, 0x47, 0x0D, 0x0A, 0x1A, 0x0A] 0 none
    (.footer [0x4D, 0x45, 0x4E, 0x44, 0x21, 0x20, 0xF7, 0xD5] 0) (200 * mb),
  .mk "jng".toList [0x8B, 0x4A, 0x4E, 0x47, 0x0D, 0x0A, 0x1A, 0x0A] 0 none
    (.footer [0x49, 0x45, 0x4E, 0x44, 0xAE, 0x42, 0x60, 0x82] 0) (100 * mb),
  .mk "gif".toList (ascii "GIF89a") 0 none .gif (30 * mb),
  .mk "gif".toList (ascii "GIF87a") 0 none .gif (30 * mb),
  .mk "bmp".toList (ascii "BM") 0 none (.headerSizeLe32 2) (100 * mb),
  .mk "pdf".toList (ascii "%PDF") 0 none (.footer (ascii "%%EOF") 2) (500 * mb),
  .mk "zip".toList [0x50, 0x4B, 0x03, 0x04] 0 none .zip (2 * gb),
  .mk "wav".toList (ascii "RIFF") 0 (some (8, ascii "WAVE")) .riffSize (2 * gb),
  .mk "avi".toList (ascii "RIFF") 0 (some (8, ascii "AVI ")) .riffSize (4 * gb),
  .mk "webp".toList (ascii "RIFF") 0 (some (8, ascii "WEBP")) .riffSize (100 * mb),
  .mk "sf2".toList (ascii "RIFF") 0 (some (8, ascii "sfbk")) .riffSize (2 * gb),
  .mk "aiff".toList (ascii "FORM") 0 (some (8, ascii "AIFF")) .formSize (2 * gb),
  .mk "aifc".toList (ascii "FORM") 0 (some (8, ascii "AIFC")) .formSize (2 * gb),
  .mk "icns".toList (ascii "icns") 0 none (.headerSizeBe32 4) (50 * mb),
  .mk "sqlite".toList [0x53, 0x51, 0x4C, 0x69, 0x74, 0x65, 0x20, 0x66, 0x6F, 0x72, 0x6D, 0x61,
    0x74, 0x20, 0x33, 0x00] 0 none .sqlite (2 * gb),
  .mk "7z".toList [0x37, 0x7A, 0xBC, 0xAF, 0x27, 0x1C] 0 none .sevenZip (4 * gb),
  .mk "cab".toList (ascii "MSCF") 0 none (.headerSizeLe32 8) (2 * gb),
  .mk "rar".toList [0x52, 0x61, 0x72, 0x21, 0x1A, 0x07] 0 none .rar (8 * gb),
  .mk "zst".toList [0x28, 0xB5, 0x2F, 0xFD] 0 none .zstd (8 * gb),
  .mk "lz4".toList [0x04, 0x22, 0x4D, 0x18] 0 none .lz4 (8 * gb),
  .mk "psd".toList (ascii "8BPS") 0 none .psd (4 * gb),
  .mk "wmf".toList [0xD7, 0xCD, 0xC6, 0x9A] 0 none .wmf (256 * mb),
  .mk "wmf".toList [0x01, 0x00, 0x09, 0x00] 0 none .wmf (256 * mb),
  .mk "wmf".toList [0x02, 0x00, 0x09, 0x00] 0 none .wmf (256 * mb),
  .mk "glb".toList (ascii "glTF") 0 none (.headerSizeLe32 8) (2 * gb),
  .mk "djvu".toList (ascii "AT&TFORM") 0 none .djvu (512 * mb),
  .mk "evtx".toList [0x45, 0x6C, 0x66, 0x46, 0x69, 0x6C, 0x65, 0x00] 0 none .evtx (2 * gb),
  .mk "rtf".toList [0x7B, 0x5C, 0x72, 0x74, 0x66, 0x31] 0 none .rtf (100 * mb),
  .mk "mp3".toList (ascii "ID3") 0 none .mp3 (100 * mb),
  .mk "mp3".toList [0xFF, 0xFB] 0 none .mp3Raw (100 * mb),
  .mk "mp3".toList [0xFF, 0xFA] 0 none .mp3Raw (100 * mb),
  .mk "mp3".toList [0xFF, 0xF3] 0 none .mp3Raw (100 * mb),
  .mk "mp3".toList [0xFF, 0xF2] 0 none .mp3Raw (100 * mb),
  .mk "mp3".toList [0xFF, 0xE3] 0 none .mp3Raw (100 * mb),
  .mk "mp3".toList [0xFF, 0xE2] 0 none .mp3Raw (100 * mb),
  .mk "heic".toList (ascii "ftyp") 4 (some (4, ascii "heic")) .mp4Atoms (100 * mb),
  .mk "heic".toList (ascii "ftyp") 4 (some (4, ascii "heix")) .mp4Atoms (100 * mb),
  .mk "heic".toList (ascii "ftyp") 4 (some (4, ascii "mif1")) .mp4Atoms (100 * mb),
  .mk "avif".toList (ascii "ftyp") 4 (some (4, ascii "avif")) .mp4Atoms (100 * mb),
  .mk "cr3".toList (ascii "ftyp") 4 (some (4, ascii "crx ")) .mp4Atoms (200 * mb),
  .mk "jxl".toList (ascii "ftyp") 4 (some (4, ascii "jxl ")) .mp4Atoms (200 * mb),
  .mk "3gp".toList (ascii "ftyp") 4 (some (4, ascii "3gp")) .mp4Atoms (4 * gb),
  .mk "mov".toList (ascii "ftyp") 4 (some (4, ascii "qt  ")) .mp4Atoms (16 * gb),
  .mk "m4a".toList (ascii "ftyp") 4 (some (4, ascii "M4A ")) .mp4Atoms (4 * gb),
  .mk "m4v".toList (ascii "ftyp") 4 (some (4, ascii "M4V ")) .mp4Atoms (16 * gb),
  .mk "mp4".toList (ascii "ftyp") 4 none .mp4Atoms (4 * gb),
  .mk "elf".toList [0x7F, 0x45, 0x4C, 0x46] 0 none .elf (2 * gb),
  .mk "exe".toList (ascii "MZ") 0 none .pe (2 * gb),
  .mk "macho".toList [0xCF, 0xFA, 0xED, 0xFE] 0 none .machO (2 * gb),
  .mk "macho".toList [0xCE, 0xFA, 0xED, 0xFE] 0 none .machO (2 * gb),
  .mk "macho".toList [0xFE, 0xED, 0xFA, 0xCF] 0 none .machO (2 * gb),
  .mk "macho".toList [0xFE, 0xED, 0xFA, 0xCE] 0 none .machO (2 * gb),
  .mk "regf".toList (ascii "regf") 0 none .regf (2 * gb),
  .mk "aac".toList [0xFF, 0xF1] 0 none .aac (200 * mb),
  .mk "aac".toList [0xFF, 0xF9] 0 none .aac (200 * mb),
  .mk "aac".toList [0xFF, 0xF0] 0 none .aac (200 * mb),
  .mk "aac".toList [0xFF, 0xF8] 0 none .aac (200 * mb),
  .mk "ts".toList [0x47] 0 (some (188, [0x47])) .mpegts (16 * gb),
  .mk "mpg".toList [0x00, 0x00, 0x01, 0xBA] 0 none .mpegps (16 * gb),
  .mk "pdb".toList [0x4D, 0x69, 0x63, 0x72, 0x6F, 0x73, 0x6F, 0x66, 0x74, 0x20, 0x43, 0x2F, 0x43,
    0x2B, 0x2B, 0x20, 0x4D, 0x53, 0x46, 0x20, 0x37, 0x2E, 0x30, 0x30, 0x0D, 0x0A, 0x1A, 0x44,
    0x53, 0x00, 0x00, 0x00] 0 none .pdb (4 * gb),
  .mk "eps".toList [0xC5, 0xD0, 0xD3, 0xC6] 0 none .eps (512 * mb),
  .mk "dex".toList [0x64, 0x65, 0x78, 0x0A] 0 none .dex gb,
  .mk "wim".toList [0x4D, 0x53, 0x57, 0x49, 0x4D, 0x00, 0x00, 0x00] 0 none .wim (8 * gb),
  .mk "swf".toList (ascii "FWS") 0 none .swf (500 * mb),
  .mk "icc".toList (ascii "acsp") 36 none .icc (64 * mb),
  .mk "ar".toList [0x21, 0x3C, 0x61, 0x72, 0x63, 0x68, 0x3E, 0x0A] 0 none .ar (2 * gb),
  .mk "shp".toList [0x00, 0x00, 0x27, 0x0A] 0 none .shp (2 * gb),
  .mk "blend".toList (ascii "BLENDER") 0 none .blend (2 * gb),
  .mk "nes".toList [0x4E, 0x45, 0x53, 0x1A] 0 none .nes (64 * mb),
  .mk "gb".toList [0xCE, 0xED, 0x66, 0x66, 0xCC, 0x0D, 0x00, 0x0B, 0x03, 0x73, 0x00, 0x83, 0x00,
    0x0C, 0x00, 0x0D, 0x00, 0x08, 0x11, 0x1F, 0x88, 0x89, 0x00, 0x0E, 0xDC, 0xCC, 0x6E, 0xE6,
    0xDD, 0xDD, 0xD9, 0x99, 0xBB, 0xBB, 0x67, 0x63, 0x6E, 0x0E, 0xEC, 0xCC, 0xDD, 0xDC, 0x99,
    0x9F, 0xBB, 0xB9, 0x33, 0x3E] 260 none .gameboy (8 * mb),
  .mk "wad".toList (ascii "IWAD") 0 none .wad (2 * gb),
  .mk "wad".toList (ascii "PWAD") 0 none .wad (2 * gb),
  .mk "au".toList (ascii ".snd") 0 none .au (2 * gb),
  .mk "md".toList (ascii "SEGA") 256 none .genesis (16 * mb),
  .mk "voc".toList [0x43, 0x72, 0x65, 0x61, 0x74, 0x69, 0x76, 0x65, 0x20, 0x56, 0x6F, 0x69, 0x63,
    0x65, 0x20, 0x46, 0x69, 0x6C, 0x65, 0x1A] 0 none .voc (2 * gb),
  .mk "amr".toList [0x23, 0x21, 0x41, 0x4D, 0x52, 0x0A] 0 none .amr (256 * mb),
  .mk "psexe".toList (ascii "PS-X EXE") 0 none .psxExe (8 * mb),
  .mk "simg".toList [0x3A, 0xFF, 0x26, 0xED] 0 none .androidSparse (16 * gb),
  .mk "cr2".toList [0x49, 0x49, 0x2A, 0x00] 0 (some (8, ascii "CR")) .tiff (200 * mb),
  .mk "tif".toList [0x49, 0x49, 0x2A, 0x00] 0 none .tiff (500 * mb),
  .mk "tif".toList [0x4D, 0x4D, 0x00, 0x2A] 0 none .tiff (500 * mb),
  .mk "tif".toList [0x49, 0x49, 0x2B, 0x00] 0 none .tiff (2 * gb),
  .mk "tif".toList [0x4D, 0x4D, 0x00, 0x2B] 0 none .tiff (2 * gb),
  .mk "mkv".toList [0x1A, 0x45, 0xDF, 0xA3] 0 none .ebml (16 * gb),
  .mk "ogg".toList (ascii "OggS") 0 none .ogg (2 * gb),
  .mk "asf".toList [0x30, 0x26, 0xB2, 0x75, 0x8E, 0x66, 0xCF, 0x11, 0xA6, 0xD9, 0x00, 0xAA, 0x00,
    0x62, 0xCE, 0x6C] 0 none .asf (8 * gb),
  .mk "wasm".toList [0x00, 0x61, 0x73, 0x6D] 0 none .wasm gb,
  .mk "ico".toList [0x00, 0x00, 0x01, 0x00] 0 none .icoCur (16 * mb),
  .mk "cur".toList [0x00, 0x00, 0x02, 0x00] 0 none .icoCur (16 * mb),
  .mk "ttf".toList [0x00, 0x01, 0x00, 0x00] 0 none .sfnt (64 * mb),
  .mk "otf".toList (ascii "OTTO") 0 none .sfnt (64 * mb),
  .mk "woff".toList (ascii "wOFF") 0 none (.headerSizeBe32 8) (64 * mb),
  .mk "woff2".toList (ascii "wOF2") 0 none (.headerSizeBe32 8) (64 * mb),
  .mk "emf".toList (ascii " EMF") 40 none (.headerSizeLe32 48) (64 * mb),
  .mk "mid".toList (ascii "MThd") 0 none .midi (16 * mb),
  .mk "flv".toList [0x46, 0x4C, 0x56, 0x01] 0 none .flv (2 * gb),
  .mk "pcap".toList [0xD4, 0xC3, 0xB2, 0xA1] 0 none .pcap (4 * gb),
  .mk "pcap".toList [0xA1, 0xB2, 0xC3, 0xD4] 0 none .pcap (4 * gb),
  .mk "pcap".toList [0x4D, 0x3C, 0xB2, 0xA1] 0 none .pcap (4 * gb),
  .mk "pcap".toList [0xA1, 0xB2, 0x3C, 0x4D] 0 none .pcap (4 * gb),
  .mk "pcapng".toList [0x0A, 0x0D, 0x0D, 0x0A] 0 none .pcapng (4 * gb),
  .mk "ttc".toList (ascii "ttcf") 0 none .ttc (256 * mb),
  .mk "jp2".toList [0x00, 0x00, 0x00, 0x0C, 0x6A, 0x50, 0x20, 0x20, 0x0D, 0x0A, 0x87, 0x0A] 0
    none .mp4Atoms (512 * mb),
  .mk "j2k".toList [0xFF, 0x4F, 0xFF, 0x51] 0 none (.footer [0xFF, 0xD9] 0) (512 * mb),
  .mk "ani".toList (ascii "RIFF") 0 (some (8, ascii "ACON")) .riffSize (16 * mb),
  .mk "ole".toList [0xD0, 0xCF, 0x11, 0xE0, 0xA1, 0xB1, 0x1A, 0xE1] 0 (some (28, [0xFE, 0xFF]))
    .cfbf (2 * gb),
  .mk "pst".toList (ascii "!BDN") 0 (some (8, ascii "SM")) .pst (50 * gb),
  .mk "tar".toList (ascii "ustar") 257 none .tar (8 * gb),
  .mk "cpio".toList (ascii "070701") 0 none .cpio (8 * gb),
  .mk "cpio".toList (ascii "070702") 0 none .cpio (8 * gb),
  .mk "squashfs".toList (ascii "hsqs") 0 none .squashfs (16 * gb),
  .mk "iso".toList (ascii "CD001") 32769 none .iso9660 (16 * gb),
  .mk "fli".toList [0x11, 0xAF] 4 none .flic (256 * mb),
  .mk "flc".toList [0x12, 0xAF] 4 none .flic (256 * mb),
  .mk "wv".toList (ascii "wvpk") 0 none .wavPack (2 * gb),
  .mk "ape".toList (ascii "MAC ") 0 none .ape (2 * gb),
  .mk "applesingle".toList [0x00, 0x05, 0x16, 0x00] 0 none .appleSingle (2 * gb),
  .mk "appledouble".toList [0x00, 0x05, 0x16, 0x07] 0 none .appleSingle (2 * gb),
  .mk "ras".toList [0x59, 0xA6, 0x6A, 0x95] 0 none .sunRaster (512 * mb),
  .mk "dsf".toList (ascii "DSD ") 0 none .dsf (4 * gb),
  .mk "dff".toList (ascii "FRM8") 0 (some (12, ascii "DSD ")) .dsdiff (4 * gb),
  .mk "pcf".toList [0x01, 0x66, 0x63, 0x70] 0 none .pcf (64 * mb),
  .mk "uimage".toList [0x27, 0x05, 0x19, 0x56] 0 none .uImage (512 * mb),
  .mk "pak".toList (ascii "PACK") 0 none .quakePak (2 * gb),
  .mk "md2".toList (ascii "IDP2") 0 none .md2 (64 * mb),
  .mk "ivf".toList (ascii "DKIF") 0 none .ivf (4 * gb),
  .mk "zim".toList [0x5A, 0x49, 0x4D, 0x04] 0 none .zim (64 * gb),
  .mk "gguf".toList (ascii "GGUF") 0 none .gguf (512 * gb),
  .mk "img".toList (ascii "ANDROID!") 0 none .bootImg (2 * gb),
  .mk "ktx2".toList [0xAB, 0x4B, 0x54, 0x58, 0x20, 0x32, 0x30, 0xBB, 0x0D, 0x0A, 0x1A, 0x0A] 0
    none .ktx2 (2 * gb),
  .mk "qoa".toList (ascii "qoaf") 0 none .qoa (512 * mb),
  .mk "img".toList (ascii "VNDRBOOT") 0 none .vendorBoot (2 * gb),
  .mk "npy".toList [0x93, 0x4E, 0x55, 0x4D, 0x50, 0x59] 0 none .npy (8 * gb),
  .mk "journal".toList (ascii "LPKSHHRH") 0 none .journal (4 * gb),
  .mk "unity3d".toList [0x55, 0x6E, 0x69, 0x74, 0x79, 0x46, 0x53, 0x00] 0 none .unityFs (4 * gb),
  .mk "raf".toList (ascii "FUJIFILMCCD-RAW ") 0 none .raf (512 * mb),
  .mk "vpk".toList [0x34, 0x12, 0xAA, 0x55] 0 none .vpk (4 * gb),
  .mk "las".toList (ascii "LASF") 0 none .las (8 * gb),
  .mk "pck".toList (ascii "GDPC") 0 none .godotPck (8 * gb),
  .mk "e57".toList (ascii "ASTM-E57") 0 none .e57 (16 * gb),
  .mk "rf64".toList (ascii "RF64") 0 (some (8, ascii "WAVE")) .rf64 (64 * gb),
  .mk "nii".toList [0x6E, 0x2B, 0x31, 0x00] 344 none .nifti (4 * gb),
  .mk "usdc".toList (ascii "PXR-USDC") 0 none .usdc (8 * gb),
  .mk "avro".toList [0x4F, 0x62, 0x6A, 0x01] 0 none .avro (8 * gb),
  .mk "h5".toList [0x89, 0x48, 0x44, 0x46, 0x0D, 0x0A, 0x1A, 0x0A] 0 none .hdf5 (64 * gb),
  .mk "dds".toList (ascii "DDS ") 0 none .dds (512 * mb),
  .mk "astc".toList [0x13, 0xAB, 0xA1, 0x5C] 0 none .astc (512 * mb),
  .mk "glb".toList (ascii "glTF") 0 none .glb (2 * gb),
  .mk "erofs".toList [0xE2, 0xE1, 0xF5, 0xE0] 1024 none .erofs (16 * gb),
  .mk "ktx".toList [0xAB, 0x4B, 0x54, 0x58, 0x20, 0x31, 0x31, 0xBB, 0x0D, 0x0A, 0x1A, 0x0A] 0
    none .ktx1 (2 * gb),
  .mk "exr".toList [0x76, 0x2F, 0x31, 0x01] 0 none .exr (2 * gb),
  .mk "mcap".toList [0x89, 0x4D, 0x43, 0x41, 0x50, 0x30, 0x0D, 0x0A] 0 none .mcap (16 * gb),
  .mk "bsp".toList (ascii "VBSP") 0 none .bsp (2 * gb),
  .mk "qoi".toList (ascii "qoif") 0 none .qoi (512 * mb),
  .mk "rpm".toList [0xED, 0xAB, 0xEE, 0xDB] 0 none .rpm (8 * gb),
  .mk "ff".toList (ascii "farbfeld") 0 none .farbfeld (512 * mb),
  .mk "y4m".toList (ascii "YUV4MPEG2") 0 none .y4m (16 * gb),
  .mk "pvr".toList [0x50, 0x56, 0x52, 0x03] 0 none .pvr (512 * mb),
  .mk "blp".toList (ascii "BLP2") 0 none .blp (256 * mb),
  .mk "grib2".toList (ascii "GRIB") 0 none .grib2 (16 * gb),
  .mk "f2fs".toList [0x10, 0x20, 0xF5, 0xF2] 1024 none .f2fs (64 * gb),
  .mk "btrfs".toList (ascii "_BHRfS_M") 65600 none .btrfs (64 * gb),
  .mk "xfs".toList (ascii "XFSB") 0 none .xfs (64 * gb),
  .mk "exfat".toList (ascii "EXFAT   ") 3 none .exfat (512 * gb),
  .mk "apfs".toList (ascii "NXSB") 32 none .apfs (512 * gb),
  .mk "refs".toList (ascii "ReFS") 3 (some (16, ascii "FSRS")) .refs (512 * gb),
  .mk "ntfs".toList (ascii "NTFS    ") 3 none .ntfs (512 * gb),
  .mk "swap".toList (ascii "SWAPSPACE2") 4086 none .swap (128 * gb),
  .mk "romfs".toList (ascii "-rom1fs-") 0 none .romfs (4 * gb),
  .mk "cramfs".toList (ascii "Compressed ROMFS") 16 none .cramfs (4 * gb),
  .mk "jfs".toList (ascii "JFS1") 32768 none .jfs (64 * gb),
  .mk "ufs".toList [0x54, 0x19, 0x01, 0x00] 9564 none .ufs (64 * gb),
  .mk "ufs".toList [0x00, 0x01, 0x19, 0x54] 9564 none .ufs (64 * gb),
  .mk "befs".toList (ascii "1SFB") 544 none .befs (64 * gb),
  .mk "befs".toList (ascii "BFS1") 544 none .befs (64 * gb),
  .mk "hfsplus".toList [0x48, 0x2B, 0x00, 0x04] 1024 none .hfsPlus (512 * gb),
  .mk "hfsplus".toList [0x48, 0x58, 0x00, 0x05] 1024 none .hfsPlus (512 * gb),
  .mk "reiserfs".toList (ascii "ReIsEr2Fs") 65588 none .reiserfs (512 * gb),
  .mk "reiserfs".toList (ascii "ReIsEr3Fs") 65588 none .reiserfs (512 * gb),
  .mk "reiserfs".toList (ascii "ReIsErFs") 8244 none .reiserfs (512 * gb),
  .mk "dtbo".toList [0xD7, 0xB7, 0xAB, 0x1E] 0 none (.headerSizeBe32 4) (64 * mb),
  .mk "dtb".toList [0xD0, 0x0D, 0xFE, 0xED] 0 none (.headerSizeBe32 4) (256 * mb),
  .mk "trx".toList (ascii "HDR0") 0 none (.headerSizeLe32 4) (256 * mb),
  .mk "dpx".toList (ascii "SDPX") 0 none (.headerSizeBe32 16) (2 * gb),
  .mk "dpx".toList (ascii "XPDS") 0 none (.headerSizeLe32 16) (2 * gb),
  .mk "cin".toList [0x80, 0x2A, 0x5F, 0xD7] 0 none (.headerSizeBe32 20) (2 * gb)]

end Unearth
